import Unirc.Decimal
import Unirc.Chars

/-!
# The duration of a ban

`valid_tkline` of `s_conf.c` reads minutes from an operator and seconds from another server. It adds
up the digits in a `time_t` of 64 bits and limits the result afterwards, so a number that does not
fit has wrapped by then.
-/

namespace Unirc

/-- `24 * 60 * 10` minutes -/
abbrev MAX_TDKLINE_TIME : ℤ := 14400

/-- What a `time_t` holds of a result. -/
def timeT (x : ℤ) : ℤ := x.bmod (2 ^ 64)

/-- The loop of `valid_tkline`; `none` is the return at a character that is not a digit. -/
def tklineLoop (result : ℤ) : Str → Option ℤ
  | [] => some result
  | c :: p =>
      if c.isDigit then tklineLoop (timeT (timeT (result * 10) + (c.toNat % 16 : ℕ))) p else none

/-- `valid_tkline`; a `minutes` that is false is `TK_SECONDS`. -/
def validTkline (p : Str) (minutes : Bool) : ℤ :=
  match tklineLoop 0 p with
  | none => 0
  | some result =>
      let result := if result = 0 then 1 else result
      let result := if minutes then result else result.tdiv 60
      let result := if MAX_TDKLINE_TIME < result then MAX_TDKLINE_TIME else result
      timeT (result * 60)

/-- The number that a string of digits writes. -/
def valueOf (s : Str) : ℕ := Nat.ofDigitChars 10 s 0

def Digits (s : Str) : Prop := ∀ c ∈ s, c.isDigit = true

instance (s : Str) : Decidable (Digits s) := inferInstanceAs (Decidable (∀ c ∈ s, _))

theorem timeT_of_lt {x : ℤ} (hlow : -2 ^ 63 ≤ x) (hhigh : x < 2 ^ 63) : timeT x = x :=
  Int.bmod_eq_of_le (by omega) (by omega)

/-- The loop has the number that is written, as far as a `time_t` holds it. -/
theorem tklineLoop_digits {p : Str} (hp : Digits p) (n : ℕ) :
    tklineLoop (timeT n) p = some (timeT (Nat.ofDigitChars 10 p n)) := by
  induction p generalizing n with
  | nil => rfl
  | cons c p ih =>
      have hc := hp c List.mem_cons_self
      have hrest : Digits p := fun d hd => hp d (List.mem_cons_of_mem c hd)
      have hvalue : c.toNat % 16 = c.toNat - '0'.toNat := by
        simp only [Char.isDigit, Bool.and_eq_true, decide_eq_true_eq] at hc
        have hlow : 48 ≤ c.toNat := hc.1
        have hhigh : c.toNat ≤ 57 := hc.2
        have hzero : '0'.toNat = 48 := rfl
        omega
      have hstep : timeT (timeT (timeT n * 10) + (c.toNat % 16 : ℕ)) =
          timeT ((10 * n + (c.toNat - '0'.toNat) : ℕ) : ℤ) := by
        rw [hvalue]
        unfold timeT
        rw [Int.bmod_add_bmod, ← Int.bmod_add_bmod, Int.bmod_mul_bmod, Int.bmod_add_bmod]
        push_cast
        rw [mul_comm]
      rw [tklineLoop, if_pos hc, hstep, ih hrest, Nat.ofDigitChars_cons]

theorem tklineLoop_of_not {p : Str} (hp : ¬ Digits p) (result : ℤ) :
    tklineLoop result p = none := by
  induction p generalizing result with
  | nil => exact absurd (fun c hc => absurd hc List.not_mem_nil) hp
  | cons c p ih =>
      rw [tklineLoop]
      split
      · rename_i hc
        refine ih (fun hrest => hp fun d hd => ?_) _
        rcases List.mem_cons.mp hd with rfl | hd
        · exact hc
        · exact hrest d hd
      · rfl

theorem validTkline_of_not {p : Str} (hp : ¬ Digits p) (minutes : Bool) :
    validTkline p minutes = 0 := by
  rw [validTkline, tklineLoop_of_not hp]

theorem validTkline_digits {p : Str} (hp : Digits p) (minutes : Bool) :
    validTkline p minutes =
      let r := if timeT (valueOf p) = 0 then 1 else timeT (valueOf p)
      let r := if minutes then r else r.tdiv 60
      timeT ((if MAX_TDKLINE_TIME < r then MAX_TDKLINE_TIME else r) * 60) := by
  have hloop : tklineLoop 0 p = some (timeT (valueOf p)) := tklineLoop_digits hp 0
  rw [validTkline, hloop]

theorem digits_print (n : ℕ) : Digits (Decimal.print n) :=
  fun _ hc => Nat.isDigit_of_mem_toDigits (by decide) (by decide) hc

theorem valueOf_print (n : ℕ) : valueOf (Decimal.print n) = n := Nat.ofDigitChars_ten_toDigits

theorem limited {r : ℤ} (hr : 0 ≤ r) :
    timeT ((if MAX_TDKLINE_TIME < r then MAX_TDKLINE_TIME else r) * 60) =
      60 * min r MAX_TDKLINE_TIME := by
  unfold MAX_TDKLINE_TIME
  rw [timeT_of_lt]
  all_goals split <;> omega

theorem validTkline_minutes {p : Str} (hp : Digits p) (hfit : valueOf p < 2 ^ 63) :
    validTkline p true = 60 * min ((max (valueOf p) 1 : ℕ) : ℤ) MAX_TDKLINE_TIME := by
  have hfits : timeT (valueOf p) = valueOf p := timeT_of_lt (by omega) (by omega)
  have hone : (if (valueOf p : ℤ) = 0 then 1 else (valueOf p : ℤ)) =
      ((max (valueOf p) 1 : ℕ) : ℤ) := by
    split <;> omega
  rw [validTkline_digits hp, hfits, hone]
  exact limited (Int.natCast_nonneg _)

theorem validTkline_seconds {p : Str} (hp : Digits p) (hfit : valueOf p < 2 ^ 63) :
    validTkline p false = 60 * min ((valueOf p / 60 : ℕ) : ℤ) MAX_TDKLINE_TIME := by
  have hfits : timeT (valueOf p) = valueOf p := timeT_of_lt (by omega) (by omega)
  have hone : (if (valueOf p : ℤ) = 0 then 1 else (valueOf p : ℤ)) =
      ((max (valueOf p) 1 : ℕ) : ℤ) := by
    split <;> omega
  have hdiv : ((max (valueOf p) 1 : ℕ) : ℤ).tdiv 60 = (valueOf p / 60 : ℕ) :=
    congrArg Int.ofNat (by omega : max (valueOf p) 1 / 60 = valueOf p / 60)
  rw [validTkline_digits hp, hfits, hone]
  dsimp only
  rw [if_neg Bool.false_ne_true, hdiv]
  exact limited (Int.natCast_nonneg _)

/-- A relayed duration is printed in decimal and read as seconds. -/
def Relays (v : ℤ) : Prop := validTkline (Decimal.print v) false = v

instance (v : ℤ) : Decidable (Relays v) := inferInstanceAs (Decidable (_ = _))

theorem relays_iff {v : ℤ} (hv : v < 2 ^ 63) :
    Relays v ↔ 0 ≤ v ∧ v ≤ 60 * MAX_TDKLINE_TIME ∧ 60 ∣ v := by
  unfold Relays MAX_TDKLINE_TIME
  cases v with
  | negSucc n =>
      have hminus : ¬ Digits (Decimal.print (.negSucc n)) := fun h => by
        have := h '-' List.mem_cons_self
        cases this
      rw [validTkline_of_not hminus]
      omega
  | ofNat n =>
      change (n : ℤ) < 2 ^ 63 at hv
      change validTkline (Decimal.print (n : ℤ)) false = n ↔
        0 ≤ (n : ℤ) ∧ (n : ℤ) ≤ _ ∧ 60 ∣ (n : ℤ)
      rw [validTkline_seconds (digits_print n) (by rw [valueOf_print]; omega), valueOf_print]
      unfold MAX_TDKLINE_TIME
      omega

/-- What is expected of the duration that a string stands for: no other than a string with a wrong
character is an error, a number gives a minute to ten days and no less than a lower number does,
and what is returned survives the way to another server. -/
structure Faithful (s : Str) : Prop where
  zero : validTkline s true = 0 ↔ ¬ Digits s
  range : Digits s → 60 ≤ validTkline s true ∧ validTkline s true ≤ 60 * MAX_TDKLINE_TIME
  mono : Digits s → ∀ t, Digits t → valueOf t ≤ valueOf s → validTkline t true ≤ validTkline s true
  relays : ∀ minutes, Relays (validTkline s minutes)

theorem faithful_of_not {s : Str} (hs : ¬ Digits s) : Faithful s where
  zero := iff_of_true (validTkline_of_not hs true) hs
  range := fun h => absurd h hs
  mono := fun h => absurd h hs
  relays := fun minutes => by
    rw [validTkline_of_not hs]
    decide

theorem faithful_of_lt {s : Str} (hs : Digits s) (hfit : valueOf s < 2 ^ 63) : Faithful s := by
  have hminutes := validTkline_minutes hs hfit
  have hseconds := validTkline_seconds hs hfit
  have hrange : 60 ≤ validTkline s true ∧ validTkline s true ≤ 60 * MAX_TDKLINE_TIME := by
    unfold MAX_TDKLINE_TIME at hminutes ⊢
    omega
  refine ⟨iff_of_false (fun h => ?_) (not_not.mpr hs), fun _ => hrange, fun _ t ht hle => ?_, ?_⟩
  · rw [h] at hrange
    exact absurd hrange.1 (by decide)
  · rw [hminutes, validTkline_minutes ht (hle.trans_lt hfit)]
    unfold MAX_TDKLINE_TIME
    omega
  · intro minutes
    cases minutes
    · rw [relays_iff] <;> rw [hseconds] <;> unfold MAX_TDKLINE_TIME <;> omega
    · rw [relays_iff] <;> rw [hminutes] <;> unfold MAX_TDKLINE_TIME <;> omega

/-- A number that does not fit is not more than a lower one, or is negative. -/
theorem not_faithful_of_le {s : Str} (hs : Digits s) (hover : 2 ^ 63 ≤ valueOf s) :
    ¬ Faithful s := by
  intro h
  obtain ⟨hlow, hhigh⟩ := h.range hs
  -- the first number whose multiple by 60 wraps to more than the limit
  let t := Decimal.print ((2 ^ 63 + 14401 : ℕ) : ℤ)
  by_cases hfar : 2 ^ 63 + 14401 ≤ valueOf s
  · have ht : Digits t := digits_print _
    have hwritten : valueOf t = 2 ^ 63 + 14401 := valueOf_print _
    have hmono := h.mono hs t ht (hwritten ▸ hfar)
    have hvalue : validTkline t true = 864060 := by
      rw [validTkline_digits ht, hwritten]
      decide
    rw [hvalue] at hmono
    have hbound : (864060 : ℤ) ≤ 60 * MAX_TDKLINE_TIME := Int.le_trans hmono hhigh
    exact absurd hbound (by decide)
  · obtain ⟨m, hm⟩ : ∃ m : ℕ, m = 2 ^ 64 - valueOf s := ⟨_, rfl⟩
    have hwrap : timeT (valueOf s) = -m := by
      have hshift : (valueOf s : ℤ) = 2 ^ 64 - m := by omega
      unfold timeT
      rw [hshift]
      exact (Int.sub_bmod_left (2 ^ 64) m).trans (Int.bmod_eq_of_le (by omega) (by omega))
    have hdiv : (-m : ℤ).tdiv 60 = -((m / 60 : ℕ) : ℤ) := Int.neg_tdiv m 60
    have hseconds : validTkline s false = -((m / 60 : ℕ) : ℤ) * 60 := by
      rw [validTkline_digits hs, hwrap]
      dsimp only
      have hne : ¬ (-m : ℤ) = 0 := by omega
      rw [if_neg hne, if_neg Bool.false_ne_true, hdiv, if_neg (by unfold MAX_TDKLINE_TIME; omega),
        timeT_of_lt (by omega) (by omega)]
    have hrelays := h.relays false
    rw [hseconds, relays_iff (by omega)] at hrelays
    omega

/-- The duration of a string is right exactly when it has a wrong character or its number fits. -/
theorem faithful_iff (s : Str) :
    Faithful s ↔ (∃ c ∈ s, c.isDigit = false) ∨ valueOf s < 2 ^ 63 := by
  have hnot : ¬ Digits s ↔ ∃ c ∈ s, c.isDigit = false := by
    unfold Digits
    push Not
    simp
  rw [← hnot]
  constructor
  · intro h
    by_contra hcon
    push Not at hcon
    exact not_faithful_of_le hcon.1 hcon.2 h
  · intro h
    by_cases hs : Digits s
    · exact faithful_of_lt hs (h.resolve_left (not_not.mpr hs))
    · exact faithful_of_not hs

/-- `KLINE 9223372036854775808` asks for a time and sets a permanent ban. -/
theorem not_forall_faithful : ¬ ∀ s, Faithful s := fun h => by
  have hdigits : Digits "9223372036854775808".toList := List.all_eq_true.mp rfl
  exact (h _).zero.mp (by decide +kernel) hdigits

end Unirc
