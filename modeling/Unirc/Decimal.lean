import Mathlib.Algebra.Ring.Int.Defs
import Mathlib.Algebra.Ring.Nat
import Mathlib.Data.Int.Basic
import Mathlib.Data.List.TakeWhile
import Mathlib.Tactic.Common

/-!
# Decimal numerals of machine words

`%d` printing and the `strtol` family on character lists. Reading back what was
printed returns the same word, whatever non-digit text follows it.
-/

namespace Decimal

/-- `%d` of a signed value. -/
def print : ℤ → List Char
  | .ofNat n => Nat.toDigits 10 n
  | .negSucc n => '-' :: Nat.toDigits 10 (n + 1)

/-- `isspace` in the C locale. -/
def isSpace (c : Char) : Bool := c = ' ' || (9 ≤ c.toNat && c.toNat ≤ 13)

def readDigits (s : List Char) : ℕ := Nat.ofDigitChars 10 (s.takeWhile Char.isDigit) 0

/-- The exact value `strtol` reads, before it is clamped to `long`. -/
def readInt (s : List Char) : ℤ :=
  match s.dropWhile isSpace with
  | '-' :: t => -(readDigits t : ℤ)
  | '+' :: t => readDigits t
  | t => readDigits t

/-- `atol`: `strtol` saturates at the ends of a 64-bit `long`. -/
def atol (s : List Char) : ℤ := max (-2 ^ 63) (min (2 ^ 63 - 1) (readInt s))

/-- `atoi`: the `long` truncated to a 32-bit `int`. -/
def atoi (s : List Char) : ℤ := (atol s).bmod (2 ^ 32)

/-- `strtoul` in base ten: the value and the text behind the numeral. With no
numeral the text is the whole input; past `ULONG_MAX` the value saturates. -/
def strtoul (s : List Char) : ℕ × List Char :=
  let t := s.dropWhile isSpace
  let neg := t.head? = some '-'
  let u := if t.head? = some '-' ∨ t.head? = some '+' then t.tail else t
  if (u.takeWhile Char.isDigit).isEmpty then (0, s)
  else if 2 ^ 64 ≤ readDigits u then (2 ^ 64 - 1, u.dropWhile Char.isDigit)
  else if neg then ((2 ^ 64 - readDigits u) % 2 ^ 64, u.dropWhile Char.isDigit)
  else (readDigits u, u.dropWhile Char.isDigit)

theorem isDigit_not_isSpace {c : Char} (h : c.isDigit = true) : isSpace c = false := by
  simp only [Char.isDigit, Bool.and_eq_true, decide_eq_true_eq] at h
  have h1 : 48 ≤ c.toNat := h.1
  simp only [isSpace, Bool.or_eq_false_iff, decide_eq_false_iff_not, Bool.and_eq_false_iff]
  refine ⟨fun he => ?_, Or.inr (by omega)⟩
  subst he
  revert h1
  decide

theorem isDigit_of_mem_print {z : ℤ} {c : Char} (h : c ∈ print z) : c.isDigit = true ∨ c = '-' := by
  cases z with
  | ofNat n => exact Or.inl (Nat.isDigit_of_mem_toDigits (by decide) (by decide) h)
  | negSucc n =>
      rcases List.mem_cons.mp h with rfl | h
      · exact Or.inr rfl
      · exact Or.inl (Nat.isDigit_of_mem_toDigits (by decide) (by decide) h)

theorem length_print_le {z : ℤ} {k : ℕ} (hk : 0 < k) (hz : z.natAbs < 10 ^ k) :
    (print z).length ≤ k + 1 := by
  cases z with
  | ofNat n => exact Nat.le_succ_of_le ((Nat.length_toDigits_le_iff (by decide) hk).mpr hz)
  | negSucc n => exact Nat.succ_le_succ ((Nat.length_toDigits_le_iff (by decide) hk).mpr hz)

theorem print_ne_nil (z : ℤ) : print z ≠ [] := by
  cases z with
  | ofNat n => exact Nat.toDigits_ne_nil
  | negSucc n => exact List.cons_ne_nil _ _

/-- Text that cannot extend a numeral: empty, or starting with a non-digit. -/
def Stops (s : List Char) : Prop := ∀ c ∈ s.head?, c.isDigit = false

@[simp] theorem stops_nil : Stops [] := by simp [Stops]

theorem stops_cons {c : Char} {s : List Char} (h : c.isDigit = false) : Stops (c :: s) := by
  simpa [Stops] using h

theorem takeWhile_isDigit_append {ds rest : List Char} (hd : ∀ c ∈ ds, c.isDigit = true)
    (hr : Stops rest) : (ds ++ rest).takeWhile Char.isDigit = ds := by
  induction ds with
  | nil =>
      cases rest with
      | nil => rfl
      | cons c rest => simp [hr c (by simp)]
  | cons d ds ih =>
      rw [List.cons_append, List.takeWhile_cons_of_pos (hd d (by simp)),
        ih fun c hc => hd c (List.mem_cons_of_mem _ hc)]

/-- `strtoul` reads the digits of a numeral and leaves what is behind them. -/
theorem strtoul_append {ds rest : List Char} (hne : ds ≠ []) (hd : ∀ c ∈ ds, c.isDigit = true)
    (hlt : readDigits ds < 2 ^ 64) (hr : Stops rest) :
    strtoul (ds ++ rest) = (readDigits ds, rest) := by
  obtain ⟨c, cs, rfl⟩ := List.exists_cons_of_ne_nil hne
  have hc : c.isDigit = true := hd c List.mem_cons_self
  have hminus : c ≠ '-' := by rintro rfl; exact absurd hc (by decide)
  have hplus : c ≠ '+' := by rintro rfl; exact absurd hc (by decide)
  have hspace : (c :: cs ++ rest).dropWhile isSpace = c :: cs ++ rest := by
    rw [List.cons_append, List.dropWhile_cons_of_neg (by simp [isDigit_not_isSpace hc])]
  have htake : (c :: cs ++ rest).takeWhile Char.isDigit = c :: cs :=
    takeWhile_isDigit_append hd hr
  have hdrop : (c :: cs ++ rest).dropWhile Char.isDigit = rest := by
    have hsplit := List.takeWhile_append_dropWhile (p := Char.isDigit) (l := c :: cs ++ rest)
    rw [htake] at hsplit
    exact List.append_cancel_left hsplit
  have hself : (c :: cs).takeWhile Char.isDigit = c :: cs := List.takeWhile_eq_self_iff.mpr hd
  have hread : readDigits (c :: cs ++ rest) = readDigits (c :: cs) := by
    rw [readDigits, readDigits, htake, hself]
  have hhead : (c :: cs ++ rest).head? = some c := rfl
  unfold strtoul
  simp only [hspace, hhead, Option.some.injEq, hminus, hplus, or_self, if_false, htake, hdrop,
    hread, Nat.not_le.mpr hlt]
  rw [if_neg (by simp)]

theorem readDigits_toDigits_append (n : ℕ) {rest : List Char} (hr : Stops rest) :
    readDigits (Nat.toDigits 10 n ++ rest) = n := by
  have hd : ∀ c ∈ Nat.toDigits 10 n, c.isDigit = true := fun c hc =>
    Nat.isDigit_of_mem_toDigits (by decide) (by decide) hc
  rw [readDigits, takeWhile_isDigit_append hd hr, Nat.ofDigitChars_ten_toDigits]

theorem readInt_print_append (z : ℤ) {rest : List Char} (hr : Stops rest) :
    readInt (print z ++ rest) = z := by
  cases z with
  | ofNat n =>
      obtain ⟨d, ds, hds⟩ := List.exists_cons_of_ne_nil (Nat.toDigits_ne_nil (n := n) (b := 10))
      have hd : d.isDigit = true :=
        Nat.isDigit_of_mem_toDigits (b := 10) (n := n) (by decide) (by decide) (by simp [hds])
      have hr' := readDigits_toDigits_append n hr
      have hm : d ≠ '-' := by rintro rfl; exact absurd hd (by decide)
      have hp : d ≠ '+' := by rintro rfl; exact absurd hd (by decide)
      rw [hds] at hr'
      simp only [print, hds, readInt, List.cons_append]
      rw [List.dropWhile_cons_of_neg (by simp [isDigit_not_isSpace hd])]
      split
      · rename_i h; exact absurd (List.cons.inj h).1 hm
      · rename_i h; exact absurd (List.cons.inj h).1 hp
      · exact congrArg Nat.cast hr'
  | negSucc n =>
      simp only [print, readInt, List.cons_append]
      rw [List.dropWhile_cons_of_neg (by decide)]
      simp only [readDigits_toDigits_append (n + 1) hr]
      omega

theorem atol_print_append (z : ℤ) (h₁ : -2 ^ 63 ≤ z) (h₂ : z < 2 ^ 63) {rest : List Char}
    (hr : Stops rest) : atol (print z ++ rest) = z := by
  rw [atol, readInt_print_append z hr]
  omega

/-- The word written by `%d` is the word `atoi` stores back. -/
theorem ofInt_atoi_print_append (x : BitVec 32) {rest : List Char} (hr : Stops rest) :
    BitVec.ofInt 32 (atoi (print x.toInt ++ rest)) = x := by
  have h₁ := BitVec.le_toInt x
  have h₂ := BitVec.toInt_lt (x := x)
  rw [atoi, atol_print_append _ (by omega) (by omega) hr, ← BitVec.toInt_ofInt, BitVec.ofInt_toInt,
    BitVec.ofInt_toInt]

theorem atoi_print_append (x : BitVec 32) {rest : List Char} (hr : Stops rest) :
    atoi (print x.toInt ++ rest) = x.toInt := by
  have h₁ := BitVec.le_toInt x
  have h₂ := BitVec.toInt_lt (x := x)
  rw [atoi, atol_print_append _ (by omega) (by omega) hr, ← BitVec.toInt_ofInt, BitVec.ofInt_toInt]

theorem ofInt_atoi_print (x : BitVec 32) : BitVec.ofInt 32 (atoi (print x.toInt)) = x := by
  simpa using ofInt_atoi_print_append x stops_nil

theorem atoi_print (x : BitVec 32) : atoi (print x.toInt) = x.toInt := by
  simpa using atoi_print_append x stops_nil

/-- No numeral starts with a zero, but for the one of zero. -/
theorem head?_toDigits {n : ℕ} (hn : 0 < n) : (Nat.toDigits 10 n).head? ≠ some '0' := by
  induction n using Nat.base_induction 10 (by decide) with
  | single m hm =>
      have hall : ∀ m < 10, 0 < m → [Nat.digitChar m].head? ≠ some '0' := by decide
      rw [Nat.toDigits_of_lt_base hm]
      exact hall m hm hn
  | digit m k hk hm ih =>
      obtain ⟨c, cs, hcs⟩ := List.exists_cons_of_ne_nil (Nat.toDigits_ne_nil (b := 10) (n := m))
      rw [← Nat.toDigits_append_toDigits (by decide) hm hk]
      rw [hcs] at ih ⊢
      exact ih hm

end Decimal
