import Mathlib.Algebra.Ring.Int.Defs
import Mathlib.Algebra.Ring.Nat
import Mathlib.Data.List.Lex
import Mathlib.Data.Char
import Mathlib.Order.Basic
import Mathlib.Tactic.Common

/-!
# Characters and bounded buffers

Texts are lists of characters, one for each byte before the terminating NUL.
Case folding is the one of `ToLowerTab` and `ToUpperTab`: the printable range
from `A` to `^` is shifted by `0x20`.
-/

instance instLinearOrderBitVec (w : ℕ) : LinearOrder (BitVec w) where
  le_refl := BitVec.le_refl
  le_trans _ _ _ := BitVec.le_trans
  le_antisymm _ _ := BitVec.le_antisymm
  le_total := BitVec.le_total
  lt_iff_le_not_ge x y := by rw [BitVec.lt_def, BitVec.le_def, BitVec.le_def]; omega
  toDecidableLE := inferInstance

theorem bitVec_zero_le {w : ℕ} (x : BitVec w) : 0 ≤ x := by
  rw [BitVec.le_def]
  exact Nat.zero_le _

namespace Unirc

abbrev Str := List Char

abbrev IRCD_BUFSIZE : ℕ := 512
abbrev HOSTLEN : ℕ := 63
abbrev NICKLEN : ℕ := 31
abbrev IDLEN : ℕ := 12
abbrev USERLEN : ℕ := 10
abbrev CHANNELLEN : ℕ := 200
abbrev REASONLEN : ℕ := 120

/-- A C `unsigned int`. -/
abbrev U32 := BitVec 32

def toLower (c : Char) : Char :=
  if 0x41 ≤ c.toNat ∧ c.toNat ≤ 0x5e then Char.ofNat (c.toNat + 0x20) else c

def toUpper (c : Char) : Char :=
  if 0x61 ≤ c.toNat ∧ c.toNat ≤ 0x7e then Char.ofNat (c.toNat - 0x20) else c

theorem toNat_ofNat {n : ℕ} (h : n < 0x100) : (Char.ofNat n).toNat = n := by
  have hv : n.isValidChar := Or.inl (by omega)
  rw [Char.ofNat, dif_pos hv]
  rfl

theorem toNat_toLower (c : Char) : (toLower c).toNat =
    if 0x41 ≤ c.toNat ∧ c.toNat ≤ 0x5e then c.toNat + 0x20 else c.toNat := by
  unfold toLower
  split
  · exact toNat_ofNat (by omega)
  · rfl

theorem toNat_toUpper (c : Char) : (toUpper c).toNat =
    if 0x61 ≤ c.toNat ∧ c.toNat ≤ 0x7e then c.toNat - 0x20 else c.toNat := by
  unfold toUpper
  split
  · exact toNat_ofNat (by omega)
  · rfl

/-- Both tables fold the same characters together. -/
theorem toUpper_eq_iff (a b : Char) : toUpper a = toUpper b ↔ toLower a = toLower b := by
  rw [← Char.toNat_inj, ← Char.toNat_inj, toNat_toUpper, toNat_toUpper, toNat_toLower,
    toNat_toLower]
  split_ifs <;> omega

theorem toLower_toLower (c : Char) : toLower (toLower c) = toLower c := by
  rw [← Char.toNat_inj, toNat_toLower, toNat_toLower]
  split_ifs <;> omega

theorem toLower_eq_iff_of_lt {c d : Char} (hd : d.toNat < 0x41) : toLower c = d ↔ c = d := by
  rw [← Char.toNat_inj, ← Char.toNat_inj, toNat_toLower]
  split_ifs <;> omega

theorem isDigit_iff (c : Char) : c.isDigit = true ↔ 48 ≤ c.toNat ∧ c.toNat ≤ 57 := by
  simp only [Char.isDigit, Bool.and_eq_true, decide_eq_true_eq]
  exact Iff.rfl

theorem isDigit_toLower (c : Char) : (toLower c).isDigit = c.isDigit := by
  rw [Bool.eq_iff_iff, isDigit_iff, isDigit_iff, toNat_toLower]
  split_ifs <;> omega

/-- `irccmp`: true when the names differ, ignoring case. -/
def irccmp (s t : Str) : Bool := s.map toUpper != t.map toUpper

theorem irccmp_eq_false_iff (s t : Str) :
    irccmp s t = false ↔ s.map toUpper = t.map toUpper := by
  simp [irccmp]

theorem irccmp_self (name : Str) : irccmp name name = false := (irccmp_eq_false_iff _ _).mpr rfl

theorem map_toUpper_eq_iff (s t : Str) :
    s.map toUpper = t.map toUpper ↔ s.map toLower = t.map toLower := by
  induction s generalizing t with
  | nil => cases t <;> simp
  | cons a s ih =>
      cases t with
      | nil => simp
      | cons b t => simp only [List.map_cons, List.cons.injEq, toUpper_eq_iff, ih]

theorem irccmp_eq_false_iff_lower (s t : Str) :
    irccmp s t = false ↔ s.map toLower = t.map toLower := by
  rw [irccmp_eq_false_iff, map_toUpper_eq_iff]

/-- `valid_hostname`. -/
def validHostname (host : Str) : Bool :=
  host.head? ≠ some '.' && host.head? ≠ some ':' &&
    host.all fun c => c = '-' || c = '.' || c = ':' || c.isAlphanum

/-- `IsAlNum`: the letters go from `A` to `^` and from `a` to `~`. -/
def isAlNum (c : Char) : Bool :=
  c.isDigit || (0x41 ≤ c.toNat && c.toNat ≤ 0x5e) || (0x61 ≤ c.toNat && c.toNat ≤ 0x7e)

/-- `IsUserChar` -/
def isUserChar (c : Char) : Bool :=
  c == '$' || c == '-' || c == '.' || c.isDigit || (0x41 ≤ c.toNat && c.toNat ≤ 0x7e)

/-- The loop of `valid_username`; `dotsInIdent` bounds the number of dots. -/
def validUserRest (dotsInIdent : ℕ) : ℕ → Str → Bool
  | _, [] => true
  | dots, c :: cs =>
      if c = '.' ∧ dotsInIdent ≠ 0 then
        dots + 1 ≤ dotsInIdent && cs.head?.any isUserChar && validUserRest dotsInIdent (dots + 1) cs
      else isUserChar c && validUserRest dotsInIdent dots cs

/-- `valid_username` -/
def validUsername (dotsInIdent : ℕ) (username : Str) : Bool :=
  match if username.head? = some '~' then username.tail else username with
  | [] => false
  | c :: cs => isAlNum c && validUserRest dotsInIdent 0 cs

/-- A `char[n]` that holds a terminated text. -/
abbrev Buf (n : ℕ) := {s : Str // s.length < n}

namespace Buf

variable {n : ℕ}

/-- `strlcpy` into a buffer of `n + 1` bytes. -/
def strlcpy (s : Str) : Buf (n + 1) :=
  ⟨s.take n, Nat.lt_succ_of_le (List.length_take_le n s)⟩

def empty : Buf (n + 1) := ⟨[], Nat.succ_pos n⟩

theorem strlcpy_val (b : Buf (n + 1)) : strlcpy b.val = b := by
  apply Subtype.ext
  exact List.take_of_length_le (Nat.le_of_lt_succ b.property)

@[simp] theorem val_empty : (empty : Buf (n + 1)).val = [] := rfl

end Buf

end Unirc
