import Mathlib.Data.List.Basic
import Unirc.CsvFields
import Unirc.Decimal

/-!
# Formatting by `vsprintf_irc`

The formatter of `sprintf_irc.c`. Numbers are written in groups of three digits of a table, `%d`
and `%u` from behind into a static buffer. A place outside of the table or below the buffer is
`none`.
-/

namespace Unirc

open Decimal

/-- `atoi_tab`: the digits of 0 to 999, four places each. -/
@[irreducible] def atoiTab : List Char := (List.range 1000).flatMap fun g =>
  [Nat.digitChar (g / 100), Nat.digitChar (g / 10 % 10), Nat.digitChar (g % 10), NUL]

/-- `scratch_buffer`: how many places there are at `s` and below, and the text above `s`. -/
structure ScratchBuffer where
  free : ℕ
  above : Str

/-- `&scratch_buffer[sizeof(scratch_buffer) - 2]`, with the last place never written. -/
def ScratchBuffer.start : ScratchBuffer := ⟨31, [NUL]⟩

/-- `*s-- = c`. -/
def ScratchBuffer.push (b : ScratchBuffer) (c : Char) : Option ScratchBuffer :=
  if b.free = 0 then none else some ⟨b.free - 1, c :: b.above⟩

/-- The loop that writes a number from behind. -/
def scratchLoop (v : ℕ) (b : ScratchBuffer) : Option ScratchBuffer := do
  let ap := 2 + (v - 1000 * (v / 1000)) * 4
  let b ← b.push (← atoiTab[ap]?)
  let b ← b.push (← atoiTab[ap - 1]?)
  let b ← b.push (← atoiTab[ap - 2]?)
  if 0 < v / 1000 then scratchLoop (v / 1000) b else some b
termination_by v

/-- What was written to `str`, and the count that is returned. -/
structure Formatted where
  out : Str
  bytes : ℕ
  deriving DecidableEq

namespace Formatted

/-- `*str++ = c`, and the count. -/
def put (o : Formatted) (c : Char) : Formatted := ⟨o.out ++ [c], o.bytes + 1⟩

/-- `%s` copies up to the NUL. -/
def putString (o : Formatted) : Str → Formatted
  | [] => o
  | c :: p => (o.put c).putString p

/-- The end of `%d` and `%u`: the zeros in front are skipped, the rest is copied. -/
def putScratch (o : Formatted) (v : ℕ) : Option Formatted :=
  (scratchLoop v .start).bind fun b =>
    match b.above.dropWhile (· = '0') with
    | [] => none
    | c :: rest => some ((o.put c).putString (cstring rest))

/-- `%d`. -/
def putInt (o : Formatted) (v : U32) : Option Formatted :=
  if v.toInt ≤ 0 then
    if v = 0 then some (o.put '0') else (o.put '-').putScratch (-v).toNat
  else o.putScratch v.toNat

/-- `%u`. -/
def putUnsigned (o : Formatted) (v : U32) : Option Formatted :=
  if v = 0 then some (o.put '0') else o.putScratch v.toNat

/-- Three digits of the table, with no count. -/
def putGroup (o : Formatted) (g : ℕ) : Option Formatted := do
  let a ← atoiTab[g * 4]?
  let b ← atoiTab[g * 4 + 1]?
  let c ← atoiTab[g * 4 + 2]?
  some { o with out := o.out ++ [a, b, c] }

/-- The end of `%lu`: three groups, and nine characters to the count. -/
def putNine (o : Formatted) (v1 : ℕ) : Option Formatted := do
  let o ← o.putGroup (v1 / 1000000)
  let v1 := v1 - v1 / 1000000 * 1000000
  let o ← o.putGroup (v1 / 1000)
  let o ← o.putGroup (v1 - v1 / 1000 * 1000)
  some { o with bytes := o.bytes + 9 }

/-- `%lu`. -/
def putLong (o : Formatted) (v : BitVec 64) : Option Formatted :=
  let v1 := v.toNat
  if v1 = 0 then some (o.put '0')
  else if 999999999 < v1 then
    let v2 := v1 / 1000000000
    (o.put (Char.ofNat ((48 + v2) % 256))).putNine (v1 - v2 * 1000000000)
  else o.putNine v1

/-- `%t`. -/
def putTwo (o : Formatted) (v : U32) : Formatted :=
  (o.put (Char.ofNat ((v.toNat / 10 + 48) % 256))).put (Char.ofNat (v.toNat % 10 + 48))

end Formatted

/-- An argument of the list. -/
inductive FormatArg
  | str (p : Str)
  | char (c : Char)
  | int (v : U32)
  | long (v : BitVec 64)
  deriving DecidableEq

/-- The loop of `vsprintf_irc`. A conversion it does not know is left to `vsprintf`, with the rest
of the format. An argument of another type is `none`. -/
def formatLoop (vsprintf : Str → List FormatArg → Str) :
    Str → List FormatArg → Formatted → Option Formatted
  | [], _, o => some o
  | '%' :: 's' :: format, args, o =>
      match args with
      | .str p :: args => formatLoop vsprintf format args (o.putString p)
      | _ => none
  | '%' :: 'c' :: format, args, o =>
      match args with
      | .char c :: args => formatLoop vsprintf format args (o.put c)
      | _ => none
  | '%' :: 'l' :: 'u' :: format, args, o =>
      match args with
      | .long v :: args => (o.putLong v).bind (formatLoop vsprintf format args)
      | _ => none
  | '%' :: 't' :: format, args, o =>
      match args with
      | .int v :: args => formatLoop vsprintf format args (o.putTwo v)
      | _ => none
  | '%' :: 'd' :: format, args, o =>
      match args with
      | .int v :: args => (o.putInt v).bind (formatLoop vsprintf format args)
      | _ => none
  | '%' :: 'u' :: format, args, o =>
      match args with
      | .int v :: args => (o.putUnsigned v).bind (formatLoop vsprintf format args)
      | _ => none
  | '%' :: '%' :: format, args, o => formatLoop vsprintf format args (o.put '%')
  | '%' :: format, args, o => some (o.putString (vsprintf ('%' :: format) args))
  | c :: format, args, o => formatLoop vsprintf format args (o.put c)

/-- `vsprintf_irc`: the bytes of `str`, and what is returned. -/
def vsprintfIrc (vsprintf : Str → List FormatArg → Str) (format : Str) (args : List FormatArg) :
    Option (Str × ℕ) :=
  (formatLoop vsprintf format args ⟨[], 0⟩).map fun o => (o.out ++ [NUL], o.bytes)

/-- A piece of a format, with the argument it takes. -/
inductive FormatItem
  | literal (c : Char)
  | string (p : Str)
  | char (c : Char)
  | int (v : U32)
  | unsigned (v : U32)
  | long (v : BitVec 64)
  deriving DecidableEq

namespace FormatItem

def format : FormatItem → Str
  | literal c => if c = '%' then ['%', '%'] else [c]
  | string _ => ['%', 's']
  | char _ => ['%', 'c']
  | int _ => ['%', 'd']
  | unsigned _ => ['%', 'u']
  | long _ => ['%', 'l', 'u']

def args : FormatItem → List FormatArg
  | literal _ => []
  | string p => [.str p]
  | char c => [.char c]
  | int v => [.int v]
  | unsigned v => [.int v]
  | long v => [.long v]

/-- The number that an item writes. -/
def number : FormatItem → Option ℤ
  | int v => some v.toInt
  | unsigned v => some v.toNat
  | long v => some v.toNat
  | _ => none

end FormatItem

/-- `vsprintf_irc` on the format of some items. -/
def formatItems (vsprintf : Str → List FormatArg → Str) (items : List FormatItem) :
    Option (Str × ℕ) :=
  vsprintfIrc vsprintf (items.flatMap FormatItem.format) (items.flatMap FormatItem.args)

/-- What `vsprintf_irc` returns for some items. -/
def formatCount (vsprintf : Str → List FormatArg → Str) (items : List FormatItem) : Option ℕ :=
  (formatItems vsprintf items).map Prod.snd

/-- Each number is read back from its place, whatever follows that does not go on with it. -/
def NumbersReadBack (vsprintf : Str → List FormatArg → Str) (items : List FormatItem) (text : Str) :
    Prop :=
  ∀ before item behind n start stop, items = before ++ item :: behind → item.number = some n →
    formatCount vsprintf before = some start →
    formatCount vsprintf (before ++ [item]) = some stop →
    ∀ rest, Stops rest → atol ((text.take stop).drop start ++ rest) = n

section Table

/-- The three digits of a group. -/
def three (g : ℕ) : Str :=
  [Nat.digitChar (g / 100), Nat.digitChar (g / 10 % 10), Nat.digitChar (g % 10)]

theorem getElem?_flatMap_four {α β : Type*} (f : α → List β) (hf : ∀ a, (f a).length = 4)
    (l : List α) (i j : ℕ) (hj : j < 4) :
    (l.flatMap f)[i * 4 + j]? = l[i]?.bind fun a => (f a)[j]? := by
  induction l generalizing i with
  | nil => rfl
  | cons a l ih =>
      rw [List.flatMap_cons]
      cases i with
      | zero =>
          rw [Nat.zero_mul, Nat.zero_add, List.getElem?_append_left (by rw [hf]; exact hj)]
          rfl
      | succ i =>
          rw [List.getElem?_append_right (by rw [hf]; omega), hf, List.getElem?_cons_succ, ← ih]
          congr 1
          omega

theorem tab_getElem? {n g j : ℕ} (hg : g < n) (hj : j < 3) :
    ((List.range n).flatMap fun g => [Nat.digitChar (g / 100), Nat.digitChar (g / 10 % 10),
      Nat.digitChar (g % 10), NUL])[g * 4 + j]? = (three g)[j]? := by
  rw [getElem?_flatMap_four _ (fun _ => rfl) _ _ _ (by omega), List.getElem?_range hg,
    Option.bind_some]
  obtain rfl | rfl | rfl : j = 0 ∨ j = 1 ∨ j = 2 := by omega
  all_goals simp [three]

theorem atoiTab_getElem? {g j : ℕ} (hg : g < 1000) (hj : j < 3) :
    atoiTab[g * 4 + j]? = (three g)[j]? := by
  unfold atoiTab
  exact tab_getElem? hg hj

theorem atoiTab_three {g : ℕ} (hg : g < 1000) :
    atoiTab[g * 4]? = some (Nat.digitChar (g / 100)) ∧
      atoiTab[g * 4 + 1]? = some (Nat.digitChar (g / 10 % 10)) ∧
      atoiTab[g * 4 + 2]? = some (Nat.digitChar (g % 10)) :=
  ⟨atoiTab_getElem? hg (j := 0) (by omega), atoiTab_getElem? hg (j := 1) (by omega),
    atoiTab_getElem? hg (j := 2) (by omega)⟩

theorem putGroup_eq (o : Formatted) {g : ℕ} (hg : g < 1000) :
    o.putGroup g = some { o with out := o.out ++ three g } := by
  obtain ⟨h0, h1, h2⟩ := atoiTab_three hg
  simp only [Formatted.putGroup, h0, h1, h2]
  rfl

end Table

section Scratch

/-- The groups of a number, with the zeros in front of the first. -/
def groups (v : ℕ) : Str :=
  (if 0 < v / 1000 then groups (v / 1000) else []) ++ three (v % 1000)
termination_by v

/-- One turn of the loop, when there is room for a group. -/
theorem scratchLoop_group (v : ℕ) (b : ScratchBuffer) (hb : 3 ≤ b.free) :
    scratchLoop v b =
      if 0 < v / 1000 then scratchLoop (v / 1000) ⟨b.free - 3, three (v % 1000) ++ b.above⟩
      else some ⟨b.free - 3, three (v % 1000) ++ b.above⟩ := by
  have hmod : 2 + (v - 1000 * (v / 1000)) * 4 = v % 1000 * 4 + 2 := by
    rw [Nat.mod_def, Nat.add_comm]
  have hone (x : ℕ) : x + 2 - 1 = x + 1 := rfl
  have hzero (x : ℕ) : x + 2 - 2 = x := rfl
  obtain ⟨h0, h1, h2⟩ := atoiTab_three (Nat.mod_lt v (by decide : 0 < 1000))
  have hpush (c : Char) (n : ℕ) (t : Str) :
      (⟨n + 1, t⟩ : ScratchBuffer).push c = some ⟨n, c :: t⟩ := by
    rw [ScratchBuffer.push, if_neg (Nat.succ_ne_zero n)]
    rfl
  obtain ⟨n, hn⟩ := Nat.exists_eq_add_of_le' hb
  obtain ⟨free, above⟩ := b
  obtain rfl : free = n + 3 := hn
  have hthree : three (v % 1000) ++ above = Nat.digitChar (v % 1000 / 100) ::
    Nat.digitChar (v % 1000 / 10 % 10) :: Nat.digitChar (v % 1000 % 10) :: above := rfl
  rw [scratchLoop]
  simp only [hmod, hone, hzero, h0, h1, h2, hpush, hthree, Nat.add_sub_cancel,
    Option.bind_eq_bind, Option.bind_some]

/-- The groups go below what was written, when there is room for all. -/
theorem scratchLoop_eq (k : ℕ) {v : ℕ} (hv : v < 1000 ^ (k + 1)) (b : ScratchBuffer)
    (hb : 3 * (k + 1) ≤ b.free) : ∃ free, scratchLoop v b = some ⟨free, groups v ++ b.above⟩ := by
  induction k generalizing v b with
  | zero =>
      have hzero : ¬ 0 < v / 1000 := by
        rw [Nat.div_eq_of_lt (by simpa using hv)]
        decide
      rw [scratchLoop_group v b hb, if_neg hzero, groups, if_neg hzero]
      exact ⟨_, rfl⟩
  | succ k ih =>
      rw [scratchLoop_group v b (by omega), groups]
      split
      · have hlt : v / 1000 < 1000 ^ (k + 1) := Nat.div_lt_of_lt_mul (by rwa [← pow_succ'])
        obtain ⟨free, hfree⟩ := ih hlt ⟨b.free - 3, three (v % 1000) ++ b.above⟩
          (Nat.le_sub_of_add_le (by omega))
        exact ⟨free, by rw [hfree, List.append_assoc]⟩
      · exact ⟨_, rfl⟩

theorem isDigit_three (g : ℕ) (hg : g < 1000) : ∀ c ∈ three g, c.isDigit = true := by
  simp only [three, List.forall_mem_cons, Nat.isDigit_digitChar, decide_eq_true_eq]
  refine ⟨by omega, by omega, by omega, ?_⟩
  simp

theorem ofDigitChars_three {g : ℕ} (hg : g < 1000) : Nat.ofDigitChars 10 (three g) 0 = g := by
  rw [three, Nat.ofDigitChars_cons_digitChar_of_lt_ten (by omega),
    Nat.ofDigitChars_cons_digitChar_of_lt_ten (by omega),
    Nat.ofDigitChars_cons_digitChar_of_lt_ten (by omega), Nat.ofDigitChars_nil]
  omega

theorem isDigit_groups (v : ℕ) : ∀ c ∈ groups v, c.isDigit = true := by
  have hthree := isDigit_three (v % 1000) (Nat.mod_lt _ (by decide))
  rw [groups]
  split
  · next h =>
      have ih := isDigit_groups (v / 1000)
      exact List.forall_mem_append.mpr ⟨ih, hthree⟩
  · simpa using hthree

theorem ofDigitChars_groups (v : ℕ) : Nat.ofDigitChars 10 (groups v) 0 = v := by
  have hthree := ofDigitChars_three (Nat.mod_lt v (by decide : 0 < 1000))
  have hsplit := Nat.div_add_mod v 1000
  rw [groups]
  split
  · next h =>
      have ih := ofDigitChars_groups (v / 1000)
      have hlen : (three (v % 1000)).length = 3 := rfl
      rw [Nat.ofDigitChars_append, ih, Nat.ofDigitChars_eq_ofDigitChars_zero, hthree, hlen]
      simpa using hsplit
  · next h =>
      have hzero : v / 1000 = 0 := Nat.eq_zero_of_not_pos h
      rw [List.nil_append, hthree]
      rw [hzero] at hsplit
      simpa using hsplit

/-- The digits of a number, without zeros in front. -/
def digits (v : ℕ) : Str := (groups v).dropWhile (· = '0')

theorem ofDigitChars_dropWhile (ds : Str) :
    Nat.ofDigitChars 10 (ds.dropWhile (· = '0')) 0 = Nat.ofDigitChars 10 ds 0 := by
  induction ds with
  | nil => rfl
  | cons d ds ih =>
      by_cases hd : d = '0'
      · subst hd
        rw [List.dropWhile_cons_of_pos (by decide), ih, Nat.ofDigitChars_cons, Nat.sub_self]
      · rw [List.dropWhile_cons_of_neg (by simpa using hd)]

theorem ofDigitChars_digits (v : ℕ) : Nat.ofDigitChars 10 (digits v) 0 = v :=
  (ofDigitChars_dropWhile _).trans (ofDigitChars_groups v)

theorem isDigit_digits (v : ℕ) : ∀ c ∈ digits v, c.isDigit = true := fun c hc =>
  isDigit_groups v c ((List.dropWhile_sublist _).subset hc)

theorem digits_ne_nil {v : ℕ} (hv : 0 < v) : digits v ≠ [] := fun h => by
  have hvalue := ofDigitChars_digits v
  rw [h] at hvalue
  exact hv.ne hvalue

theorem putString_eq (o : Formatted) (p : Str) :
    o.putString p = ⟨o.out ++ p, o.bytes + p.length⟩ := by
  induction p generalizing o with
  | nil => simp [Formatted.putString]
  | cons c p ih =>
      rw [Formatted.putString, ih, Formatted.put, List.append_assoc, List.length_cons]
      simp only [List.singleton_append, Formatted.mk.injEq, true_and]
      omega

/-- The buffer has room for every number of 32 bits. -/
theorem putScratch_eq (o : Formatted) {v : ℕ} (hpos : 0 < v) (hv : v < 2 ^ 32) :
    o.putScratch v = some (o.putString (digits v)) := by
  have hlt : v < 1000 ^ (3 + 1) := hv.trans (by decide)
  obtain ⟨free, hloop⟩ := scratchLoop_eq 3 hlt .start (by decide)
  have hnul : ∀ c ∈ digits v, c ≠ NUL := fun c hc h0 => by
    have hdigit := isDigit_digits v c hc
    rw [h0] at hdigit
    cases hdigit
  obtain ⟨c, rest, hdigits⟩ := List.exists_cons_of_ne_nil (digits_ne_nil hpos)
  have hdrop : (groups v ++ [NUL]).dropWhile (· = '0') = c :: (rest ++ [NUL]) := by
    have hgroups : (groups v).dropWhile (· = '0') = c :: rest := hdigits
    rw [List.dropWhile_append, hgroups]
    rfl
  have hrest : cstring (rest ++ [NUL]) = rest := cstring_append
    (fun h => hnul NUL (hdigits ▸ List.mem_cons_of_mem c h) rfl) []
  rw [Formatted.putScratch, hloop, Option.bind_some]
  simp only [ScratchBuffer.start, hdrop, hrest, hdigits]
  rfl

end Scratch

namespace FormatItem

/-- The text that an item writes. -/
def piece : FormatItem → Str
  | literal c => [c]
  | string p => p
  | char c => [c]
  | int v => if v.toInt ≤ 0 then if v = 0 then ['0'] else '-' :: digits (-v).toNat
      else digits v.toNat
  | unsigned v => if v = 0 then ['0'] else digits v.toNat
  | long v => if v.toNat = 0 then ['0'] else
      (if 999999999 < v.toNat then [Char.ofNat ((48 + v.toNat / 1000000000) % 256)] else []) ++
        (three (v.toNat % 1000000000 / 1000000) ++ (three (v.toNat % 1000000 / 1000) ++
          three (v.toNat % 1000)))

end FormatItem

section Pieces

variable {o : Formatted}

theorem toNat_pos {v : U32} (h : v ≠ 0) : 0 < v.toNat :=
  Nat.pos_of_ne_zero fun h0 => h (BitVec.eq_of_toNat_eq h0)

theorem putUnsigned_eq (o : Formatted) (v : U32) :
    o.putUnsigned v = some (o.putString (FormatItem.unsigned v).piece) := by
  rw [Formatted.putUnsigned, FormatItem.piece]
  split
  · rfl
  · next h => exact putScratch_eq o (toNat_pos h) v.isLt

theorem putInt_eq (o : Formatted) (v : U32) :
    o.putInt v = some (o.putString (FormatItem.int v).piece) := by
  rw [Formatted.putInt, FormatItem.piece]
  split
  · split
    · rfl
    · next h =>
        have hneg : -v ≠ 0 := fun h0 => h (by simpa using h0)
        exact putScratch_eq _ (toNat_pos hneg) (-v).isLt
  · next h =>
      have hne : v ≠ 0 := fun h0 => h (by rw [h0]; decide)
      exact putScratch_eq o (toNat_pos hne) v.isLt

theorem putNine_eq (o : Formatted) {n : ℕ} (hn : n < 1000000000) :
    o.putNine n = some (o.putString
      (three (n / 1000000) ++ (three (n % 1000000 / 1000) ++ three (n % 1000)))) := by
  have hmod : n - n / 1000000 * 1000000 = n % 1000000 := by omega
  have hlast : n % 1000000 - n % 1000000 / 1000 * 1000 = n % 1000 := by omega
  rw [Formatted.putNine, putGroup_eq o (by omega), hmod]
  simp only [Option.bind_eq_bind, Option.bind_some, hlast]
  rw [putGroup_eq _ (by omega), Option.bind_some, putGroup_eq _ (by omega), Option.bind_some,
    putString_eq, List.append_assoc, List.append_assoc]
  rfl

theorem putLong_eq (o : Formatted) (v : BitVec 64) :
    o.putLong v = some (o.putString (FormatItem.long v).piece) := by
  simp only [Formatted.putLong, FormatItem.piece]
  generalize v.toNat = n
  have hmod : n - n / 1000000000 * 1000000000 = n % 1000000000 := by omega
  have hsix : n % 1000000000 % 1000000 = n % 1000000 := by omega
  have hthree : n % 1000000000 % 1000 = n % 1000 := by omega
  have hnine := Nat.mod_lt n (by decide : 0 < 1000000000)
  split
  · rfl
  · split
    · rw [hmod, putNine_eq _ hnine, hsix, hthree]
      rfl
    · rw [putNine_eq o (by omega), Nat.mod_eq_of_lt (by omega : n < 1000000000)]
      rfl

theorem formatLoop_literal {vsprintf : Str → List FormatArg → Str} {c : Char} (hc : c ≠ '%')
    (format : Str) (args : List FormatArg) (o : Formatted) :
    formatLoop vsprintf (c :: format) args o = formatLoop vsprintf format args (o.put c) := by
  rw [formatLoop]
  all_goals simp [hc]

theorem formatLoop_item (vsprintf : Str → List FormatArg → Str) (item : FormatItem) (format : Str)
    (args : List FormatArg) (o : Formatted) :
    formatLoop vsprintf (item.format ++ format) (item.args ++ args) o =
      formatLoop vsprintf format args (o.putString item.piece) := by
  cases item with
  | literal c =>
      by_cases hc : c = '%'
      · subst hc
        rfl
      · rw [FormatItem.format, if_neg hc]
        exact formatLoop_literal hc format args o
  | string p => rfl
  | char c => rfl
  | int v => exact congrArg (Option.bind · _) (putInt_eq o v)
  | unsigned v => exact congrArg (Option.bind · _) (putUnsigned_eq o v)
  | long v => exact congrArg (Option.bind · _) (putLong_eq o v)

/-- What is written for some items, and how much is counted. -/
theorem formatItems_eq (vsprintf : Str → List FormatArg → Str) (items : List FormatItem) :
    formatItems vsprintf items =
      some (items.flatMap FormatItem.piece ++ [NUL], (items.flatMap FormatItem.piece).length) := by
  have hloop (o : Formatted) : formatLoop vsprintf (items.flatMap FormatItem.format)
      (items.flatMap FormatItem.args) o = some (o.putString (items.flatMap FormatItem.piece)) := by
    induction items generalizing o with
    | nil => rfl
    | cons item items ih =>
        rw [List.flatMap_cons, List.flatMap_cons, formatLoop_item, ih, putString_eq, putString_eq,
          putString_eq, List.flatMap_cons, List.append_assoc, List.length_append, Nat.add_assoc]
  rw [formatItems, vsprintfIrc, hloop, putString_eq]
  simp

end Pieces

section Reading

theorem ofDigitChars_lt {ds : Str} (hd : ∀ c ∈ ds, c.isDigit = true) :
    Nat.ofDigitChars 10 ds 0 < 10 ^ ds.length := by
  induction ds with
  | nil => decide
  | cons d ds ih =>
      have ih := ih fun c hc => hd c (List.mem_cons_of_mem d hc)
      have hdigit := (isDigit_iff d).mp (hd d List.mem_cons_self)
      have hle : 10 * 0 + (d.toNat - '0'.toNat) ≤ 9 := by
        have hzero : '0'.toNat = 48 := rfl
        omega
      have hmul := Nat.mul_le_mul_left (10 ^ ds.length) hle
      rw [Nat.ofDigitChars_cons, Nat.ofDigitChars_eq_ofDigitChars_zero, List.length_cons, pow_succ]
      omega

theorem readDigits_lt (s : Str) : readDigits s < 10 ^ s.length := by
  have hlen := (List.takeWhile_sublist (l := s) Char.isDigit).length_le
  have hall : ∀ c ∈ s.takeWhile Char.isDigit, c.isDigit = true := fun c hc =>
    List.mem_takeWhile_imp hc
  have hlt := ofDigitChars_lt hall
  exact hlt.trans_le (Nat.pow_le_pow_right (by decide) hlen)

/-- Nothing that is read needs more digits than there are characters. -/
theorem readInt_lt (s : Str) : readInt s < 10 ^ s.length := by
  have hread (t : Str) (h : t.length ≤ s.length) : (readDigits t : ℤ) < 10 ^ s.length := by
    have hlt := (readDigits_lt t).trans_le (Nat.pow_le_pow_right (by decide : 0 < 10) h)
    exact_mod_cast hlt
  have hlen := (List.dropWhile_sublist (l := s) isSpace).length_le
  unfold readInt
  split
  · next t heq =>
      have hzero := hread [] (Nat.zero_le _)
      have hnil : readDigits [] = 0 := rfl
      rw [hnil] at hzero
      omega
  · next t heq =>
      rw [heq, List.length_cons] at hlen
      exact hread t (by omega)
  · exact hread _ hlen

/-- A text of digits reads as their value. -/
theorem readInt_digits {ds rest : Str} (hne : ds ≠ []) (hd : ∀ c ∈ ds, c.isDigit = true)
    (hr : Stops rest) : readInt (ds ++ rest) = Nat.ofDigitChars 10 ds 0 := by
  have hread : readDigits (ds ++ rest) = Nat.ofDigitChars 10 ds 0 := by
    rw [readDigits, takeWhile_isDigit_append hd hr]
  obtain ⟨c, cs, rfl⟩ := List.exists_cons_of_ne_nil hne
  have hc := hd c List.mem_cons_self
  have hspace : (c :: cs ++ rest).dropWhile isSpace = c :: cs ++ rest :=
    List.dropWhile_cons_of_neg (by simp [isDigit_not_isSpace hc])
  rw [readInt, hspace]
  split
  · next heq =>
      obtain rfl := (List.cons.inj heq).1
      cases hc
  · next heq =>
      obtain rfl := (List.cons.inj heq).1
      cases hc
  · exact congrArg Nat.cast hread

theorem readInt_minus {ds rest : Str} (hd : ∀ c ∈ ds, c.isDigit = true) (hr : Stops rest) :
    readInt ('-' :: ds ++ rest) = -(Nat.ofDigitChars 10 ds 0 : ℤ) := by
  have hspace : ('-' :: ds ++ rest).dropWhile isSpace = '-' :: (ds ++ rest) :=
    List.dropWhile_cons_of_neg (by decide)
  rw [readInt, hspace]
  exact congrArg (fun n : ℕ => -(n : ℤ)) (by rw [readDigits, takeWhile_isDigit_append hd hr])

theorem atol_digits {ds rest : Str} {n : ℕ} (hne : ds ≠ []) (hd : ∀ c ∈ ds, c.isDigit = true)
    (hn : Nat.ofDigitChars 10 ds 0 = n) (hlt : n < 2 ^ 63) (hr : Stops rest) :
    atol (ds ++ rest) = n := by
  rw [atol, readInt_digits hne hd hr, hn]
  omega

theorem atol_unsigned {v : U32} {rest : Str} (hr : Stops rest) :
    atol ((FormatItem.unsigned v).piece ++ rest) = v.toNat := by
  rw [FormatItem.piece]
  split
  · next h =>
      rw [h]
      exact atol_digits (List.cons_ne_nil _ _) (by simp) rfl (by decide) hr
  · next h =>
      exact atol_digits (digits_ne_nil (toNat_pos h)) (isDigit_digits _) (ofDigitChars_digits _)
        (by omega) hr

theorem atol_int {v : U32} {rest : Str} (hr : Stops rest) :
    atol ((FormatItem.int v).piece ++ rest) = v.toInt := by
  have hint := BitVec.toInt_eq_toNat_cond v
  rw [FormatItem.piece]
  split
  · next hle =>
      split
      · next h =>
          rw [h]
          exact atol_digits (List.cons_ne_nil _ _) (by simp) rfl (by decide) hr
      · next h =>
          have hpos := toNat_pos h
          have hlt := v.isLt
          have hneg : ((-v).toNat : ℤ) = -v.toInt := by
            rw [BitVec.toNat_neg, Nat.mod_eq_of_lt (by omega)]
            split at hint <;> omega
          rw [atol, readInt_minus (isDigit_digits _) hr, ofDigitChars_digits, hneg]
          omega
  · next h =>
      have hnat : v.toInt = v.toNat := by
        split at hint <;> omega
      rw [hnat]
      have hpos : 0 < v.toNat := by omega
      exact atol_digits (digits_ne_nil hpos) (isDigit_digits _) (ofDigitChars_digits _) (by omega)
        hr

/-- The nine digits of three groups. -/
def nine (n : ℕ) : Str :=
  three (n % 1000000000 / 1000000) ++ (three (n % 1000000 / 1000) ++ three (n % 1000))

theorem isDigit_nine (n : ℕ) : ∀ c ∈ nine n, c.isDigit = true := by
  simp only [nine, List.forall_mem_append]
  exact ⟨isDigit_three _ (by omega), isDigit_three _ (by omega), isDigit_three _ (by omega)⟩

theorem ofDigitChars_append_value (a b : Str) : Nat.ofDigitChars 10 (a ++ b) 0 =
    10 ^ b.length * Nat.ofDigitChars 10 a 0 + Nat.ofDigitChars 10 b 0 := by
  rw [Nat.ofDigitChars_append, Nat.ofDigitChars_eq_ofDigitChars_zero]

theorem ofDigitChars_nine (n : ℕ) : Nat.ofDigitChars 10 (nine n) 0 = n % 1000000000 := by
  have hlen (g : ℕ) : (three g).length = 3 := rfl
  rw [nine, ofDigitChars_append_value, ofDigitChars_append_value, List.length_append, hlen, hlen,
    ofDigitChars_three (by omega), ofDigitChars_three (by omega), ofDigitChars_three (by omega)]
  omega

theorem ofNat_digit {q : ℕ} (hq : q < 10) : Char.ofNat ((48 + q) % 256) = Nat.digitChar q := by
  have hall : ∀ q < 10, Char.ofNat ((48 + q) % 256) = Nat.digitChar q := by decide
  exact hall q hq

theorem atol_long_iff (v : BitVec 64) :
    (∀ rest, Stops rest → atol ((FormatItem.long v).piece ++ rest) = v.toNat) ↔
      v.toNat < 10 ^ 10 := by
  rw [FormatItem.piece, ← nine]
  generalize v.toNat = n
  split
  · next h =>
      subst h
      refine iff_of_true (fun rest hr => ?_) (by decide)
      exact atol_digits (List.cons_ne_nil _ _) (by simp) rfl (by decide) hr
  have hvalue := ofDigitChars_nine n
  have hlen : (nine n).length = 9 := rfl
  split
  · by_cases hsmall : n < 10 ^ 10
    · refine iff_of_true (fun rest hr => ?_) hsmall
      have hq : n / 1000000000 < 10 := by omega
      have hchar : Char.ofNat ((48 + n / 1000000000) % 256) = Nat.digitChar (n / 1000000000) :=
        ofNat_digit hq
      have hall : ∀ c ∈ [Nat.digitChar (n / 1000000000)] ++ nine n, c.isDigit = true :=
        List.forall_mem_append.mpr ⟨by simpa using hq, isDigit_nine n⟩
      rw [hchar]
      refine atol_digits (List.cons_ne_nil _ _) hall ?_ (by omega) hr
      rw [ofDigitChars_append_value, hlen, hvalue, Nat.ofDigitChars_cons_digitChar_of_lt_ten hq,
        Nat.ofDigitChars_nil]
      omega
    · refine iff_of_false (fun hreads => ?_) hsmall
      generalize Char.ofNat ((48 + n / 1000000000) % 256) = c at hreads
      have hlt := readInt_lt ([c] ++ nine n ++ [])
      have hread := hreads [] stops_nil
      have hten : ([c] ++ nine n ++ []).length = 10 := rfl
      rw [hten] at hlt
      rw [atol] at hread
      omega
  · next h =>
      refine iff_of_true (fun rest hr => ?_) (by omega)
      rw [Nat.mod_eq_of_lt (by omega)] at hvalue
      exact atol_digits (List.cons_ne_nil _ _) (isDigit_nine n) hvalue (by omega) hr

/-- Every number but a `%lu` of more than ten digits is read back from its text. -/
theorem piece_reads_iff {item : FormatItem} {n : ℤ} (h : item.number = some n) :
    (∀ rest, Stops rest → atol (item.piece ++ rest) = n) ↔
      ∀ v, item = .long v → v.toNat < 10 ^ 10 := by
  cases item with
  | literal c => cases h
  | string p => cases h
  | char c => cases h
  | int v =>
      cases h
      exact iff_of_true (fun rest hr => atol_int hr) fun v hv => by cases hv
  | unsigned v =>
      cases h
      exact iff_of_true (fun rest hr => atol_unsigned hr) fun v hv => by cases hv
  | long v =>
      cases h
      rw [atol_long_iff]
      exact ⟨fun hv w hw => by cases hw; exact hv, fun h => h v rfl⟩

end Reading

/-- The text and the count are right for all items. The numbers are read back exactly when no
`%lu` has more than ten digits. -/
theorem formatItems_numbers (vsprintf : Str → List FormatArg → Str) (items : List FormatItem) :
    ∃ text, formatItems vsprintf items = some (text ++ [NUL], text.length) ∧
      (NumbersReadBack vsprintf items text ↔ ∀ v, .long v ∈ items → v.toNat < 10 ^ 10) := by
  refine ⟨_, formatItems_eq vsprintf items, ?_⟩
  have hcount (items : List FormatItem) :
      formatCount vsprintf items = some (items.flatMap FormatItem.piece).length := by
    rw [formatCount, formatItems_eq]
    rfl
  have hpiece (before behind : List FormatItem) (item : FormatItem) :
      (((before ++ item :: behind).flatMap FormatItem.piece).take
        ((before ++ [item]).flatMap FormatItem.piece).length).drop
          (before.flatMap FormatItem.piece).length = item.piece := by
    have hall : (before ++ item :: behind).flatMap FormatItem.piece =
        (before ++ [item]).flatMap FormatItem.piece ++ behind.flatMap FormatItem.piece := by simp
    have hone : (before ++ [item]).flatMap FormatItem.piece =
        before.flatMap FormatItem.piece ++ item.piece := by simp
    rw [hall, List.take_left, hone, List.drop_left]
  constructor
  · intro hreads v hv
    obtain ⟨before, behind, rfl⟩ := List.append_of_mem hv
    refine (atol_long_iff v).mp fun rest hrest => ?_
    have hback := hreads before (.long v) behind v.toNat _ _ rfl rfl (hcount _) (hcount _) rest
      hrest
    rwa [hpiece] at hback
  · rintro hsmall before item behind n start stop rfl hnumber hstart hstop rest hrest
    obtain rfl := Option.some.inj ((hcount _).symm.trans hstart)
    obtain rfl := Option.some.inj ((hcount _).symm.trans hstop)
    rw [hpiece]
    refine (piece_reads_iff hnumber).mpr (fun v hv => ?_) rest hrest
    subst hv
    exact hsmall v (List.mem_append_right _ List.mem_cons_self)

/-- From 10000000000 on the first digits of a `%lu` are one character. -/
theorem not_forall_numbersReadBack : ¬ ∀ items, ∃ text,
    formatItems (fun _ _ => []) items = some (text ++ [NUL], text.length) ∧
      NumbersReadBack (fun _ _ => []) items text := fun h => by
  obtain ⟨text, htext, hreads⟩ := h [.long 10000000000]
  have hone : formatItems (fun _ _ => []) [.long 10000000000] =
      some (":000000000".toList ++ [NUL], 10) := by decide +kernel
  have hcount : formatCount (fun _ _ => []) [.long 10000000000] = some 10 := by
    rw [formatCount, hone]
    rfl
  have hsame := List.append_cancel_right
    (congrArg Prod.fst (Option.some.inj (htext.symm.trans hone)))
  subst hsame
  have hback := hreads [] (.long 10000000000) [] _ 0 10 rfl rfl rfl hcount [] stops_nil
  revert hback
  decide +kernel

end Unirc
