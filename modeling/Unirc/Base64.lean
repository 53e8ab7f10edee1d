import Mathlib.Data.List.Basic
import Mathlib.Data.Nat.Bitwise
import Mathlib.Order.Nat
import Unirc.CsvFields

/-!
# Base64 of a cryptlink

`base64_block` and `unbase64_block` of `s_serv.c`. Three bytes are spread over four places of a
word and come back from the values of four characters. A write outside of the allocated block is
`none`.
-/

namespace Unirc

/-- An allocated block, and how many places were filled. -/
structure OutBlock (α : Type*) where
  memory : List α
  count : ℕ

namespace OutBlock

variable {α : Type*}

/-- `MyMalloc`, which clears the block. -/
def malloc (size : ℕ) (zero : α) : OutBlock α := ⟨List.replicate size zero, 0⟩

/-- `out[i] = c`. -/
def write (o : OutBlock α) (i : ℕ) (c : α) : Option (OutBlock α) :=
  if i < o.memory.length then some { o with memory := o.memory.set i c } else none

/-- `out[count++] = c`. -/
def put (o : OutBlock α) (c : α) : Option (OutBlock α) :=
  (o.write o.count c).map fun o => { o with count := o.count + 1 }

def puts (o : OutBlock α) (cs : List α) : Option (OutBlock α) := cs.foldlM put o

end OutBlock

abbrev Byte := Fin 256

def base64Chars : List Char :=
  "ABCDEFGHIJKLMNOPQRSTUVWXYZabcdefghijklmnopqrstuvwxyz0123456789+/=".toList

def base64Values : List ℤ :=
  List.replicate 43 (-1) ++ [62] ++ List.replicate 3 (-1) ++ [63] ++
  (List.range' 52 10).map Int.ofNat ++ [-1, -1, -1, 0, -1, -1] ++ [-1] ++
  (List.range' 0 26).map Int.ofNat ++ List.replicate 6 (-1) ++
  (List.range' 26 26).map Int.ofNat ++ List.replicate 133 (-1)

/-- The word of the encoder for the bytes that are there. -/
def encodeWord (a : Byte) (b c : Option Byte) : ℕ :=
  let q := match c with
    | some c => (c.val &&& 0xc0) <<< 2 ||| c.val
    | none => 0
  let q := match b with
    | some b => q ||| (b.val &&& 0x0f) <<< 10 ||| (b.val &&& 0xf0) <<< 12
    | none => q
  (q ||| (a.val &&& 0x03) <<< 20 ||| a.val <<< 22) &&& 0x3f3f3f3f

def wordChars (q : ℕ) : List Char :=
  [base64Chars.getD (q >>> 24) NUL, base64Chars.getD (q >>> 16 &&& 0xff) NUL,
    base64Chars.getD (q >>> 8 &&& 0xff) NUL, base64Chars.getD (q &&& 0xff) NUL]

/-- The loop of `base64_block`, with `i - len` behind it. -/
def encodeLoop : List Byte → OutBlock Char → Option (OutBlock Char × ℕ)
  | [], o => some (o, 0)
  | [a], o => (o.puts (wordChars (encodeWord a none none))).map (·, 2)
  | [a, b], o => (o.puts (wordChars (encodeWord a (some b) none))).map (·, 1)
  | a :: b :: c :: data, o =>
      (o.puts (wordChars (encodeWord a (some b) (some c)))).bind (encodeLoop data)

/-- The last characters are replaced by the padding. -/
def padOut (o : OutBlock Char) (excess : ℕ) : Option (OutBlock Char) :=
  if 0 < excess then
    (o.write (o.count - 1) '=').bind fun o =>
      if 1 < excess then o.write (o.count - 2) '=' else some o
  else some o

/-- `base64_block`: the count, and the block. -/
def base64Block (data : List Byte) : Option (ℕ × List Char) :=
  let size := (data.length + 2 - (data.length + 2) % 3) / 3 * 4 + 1
  (encodeLoop data (.malloc size NUL)).bind fun r =>
    (padOut r.1 r.2).bind fun o =>
      (o.write o.count NUL).map fun o => (o.count, o.memory)

/-- What a character adds to the word of the decoder. -/
def charValue (c : Char) : ℕ :=
  if base64Values.getD c.toNat (-1) > -1 then (base64Values.getD c.toNat (-1)).toNat else 0

def decodeWord (a b c d : Char) : ℕ :=
  charValue d ||| charValue c <<< 6 ||| charValue b <<< 12 ||| charValue a <<< 18

def wordBytes (q : ℕ) : List Byte :=
  [Fin.ofNat 256 (q >>> 16 &&& 0xff), Fin.ofNat 256 (q >>> 8 &&& 0xff), Fin.ofNat 256 (q &&& 0xff)]

/-- The loop of `unbase64_block`. -/
def decodeLoop : List Char → OutBlock Byte → Option (OutBlock Byte)
  | a :: b :: c :: d :: text, o => (o.puts (wordBytes (decodeWord a b c d))).bind (decodeLoop text)
  | _, o => some o

/-- `unbase64_block`. Without a text it looks in front of it. -/
def unbase64Block (text : List Char) : Option (ℕ × List Byte) :=
  if text.length % 4 ≠ 0 then some (0, [])
  else
    (decodeLoop text (.malloc (text.length / 4 * 3 + 1) 0)).bind fun o =>
      match text.reverse with
      | last :: before :: _ =>
          let count := if last = '=' then o.count - 1 else o.count
          let count := if before = '=' then count - 1 else count
          (o.write count 0).map fun o => (count, o.memory)
      | _ => none

/-- The standard encoding with padding. -/
def base64 : List Byte → List Char
  | [] => []
  | [a] => [base64Chars.getD (a.val / 4) NUL, base64Chars.getD (a.val % 4 * 16) NUL, '=', '=']
  | [a, b] =>
      [base64Chars.getD (a.val / 4) NUL, base64Chars.getD (a.val % 4 * 16 + b.val / 16) NUL,
        base64Chars.getD (b.val % 16 * 4) NUL, '=']
  | a :: b :: c :: data =>
      [base64Chars.getD (a.val / 4) NUL, base64Chars.getD (a.val % 4 * 16 + b.val / 16) NUL,
        base64Chars.getD (b.val % 16 * 4 + c.val / 64) NUL,
        base64Chars.getD (c.val % 64) NUL] ++ base64 data

namespace OutBlock

variable {α : Type*} {pre rest : List α}

theorem write_eq (c : α) {n : ℕ} (x : α) : (⟨pre ++ x :: rest, n⟩ : OutBlock α).write pre.length c =
    some ⟨pre ++ c :: rest, n⟩ := by
  have hlt : pre.length < (pre ++ x :: rest).length := by simp
  rw [write, if_pos hlt, List.set_append_right _ _ le_rfl, Nat.sub_self, List.set_cons_zero]

theorem puts_eq {cs : List α} (h : cs.length ≤ rest.length) :
    (⟨pre ++ rest, pre.length⟩ : OutBlock α).puts cs =
      some ⟨pre ++ cs ++ rest.drop cs.length, (pre ++ cs).length⟩ := by
  induction cs generalizing pre rest with
  | nil => simp [puts]
  | cons c cs ih =>
      obtain ⟨x, rest, rfl⟩ := List.exists_cons_of_ne_nil (List.ne_nil_of_length_pos
        (Nat.zero_lt_of_lt h))
      have hput : (⟨pre ++ x :: rest, pre.length⟩ : OutBlock α).put c =
          some ⟨(pre ++ [c]) ++ rest, (pre ++ [c]).length⟩ := by
        rw [put, write_eq, Option.map_some, List.append_assoc, List.length_append]
        rfl
      have hrest := @ih (pre ++ [c]) rest (Nat.le_of_succ_le_succ h)
      rw [puts] at hrest ⊢
      rw [List.foldlM_cons, hput]
      simpa using hrest

end OutBlock

theorem and_c0 (c : Byte) : c.val &&& 0xc0 = c.val / 64 * 64 := by
  revert c
  decide +kernel

theorem and_f0 (b : Byte) : b.val &&& 0xf0 = b.val / 16 * 16 := by
  revert b
  decide +kernel

theorem or_shiftLeft {x k : ℕ} (y : ℕ) (h : x < 2 ^ k) : x ||| y <<< k = x + y * 2 ^ k := by
  rw [Nat.lor_comm, ← Nat.shiftLeft_add_eq_or_of_lt h, Nat.shiftLeft_eq, Nat.add_comm]

def byteOr (b : Option Byte) : ℕ := b.elim 0 Fin.val

theorem byteOr_lt (b : Option Byte) : byteOr b < 256 := by
  cases b with
  | none => decide
  | some b => exact b.isLt

theorem byteOr_c0 (c : Option Byte) : byteOr c &&& 0xc0 = byteOr c / 64 * 64 := by
  cases c with
  | none => rfl
  | some c => exact and_c0 c

theorem byteOr_f0 (b : Option Byte) : byteOr b &&& 0xf0 = byteOr b / 16 * 16 := by
  cases b with
  | none => rfl
  | some b => exact and_f0 b

/-- The word is the sum of its parts, which have no bits in common. -/
theorem encodeWord_eq (a : Byte) (b c : Option Byte) : encodeWord a b c =
    (byteOr c + byteOr c / 64 * 2 ^ 8 + byteOr b % 16 * 2 ^ 10 + byteOr b / 16 * 2 ^ 16 +
      a.val % 4 * 2 ^ 20 + a.val * 2 ^ 22) &&& 0x3f3f3f3f := by
  have hword : encodeWord a b c = ((byteOr c &&& 0xc0) <<< 2 ||| byteOr c |||
      (byteOr b &&& 0x0f) <<< 10 ||| (byteOr b &&& 0xf0) <<< 12 ||| (a.val &&& 0x03) <<< 20 |||
      a.val <<< 22) &&& 0x3f3f3f3f := by
    cases b <;> cases c <;> simp [encodeWord, byteOr]
  have hb := byteOr_lt b
  have hc := byteOr_lt c
  have ha := a.isLt
  have hlow : byteOr b &&& 0x0f = byteOr b % 16 := Nat.and_two_pow_sub_one_eq_mod _ 4
  have ha3 : a.val &&& 0x03 = a.val % 4 := Nat.and_two_pow_sub_one_eq_mod _ 2
  have hc0 : (byteOr c / 64 * 64) <<< 2 = (byteOr c / 64) <<< 8 := by
    rw [Nat.shiftLeft_eq, Nat.shiftLeft_eq, Nat.mul_assoc]
  have hf0 : (byteOr b / 16 * 16) <<< 12 = (byteOr b / 16) <<< 16 := by
    rw [Nat.shiftLeft_eq, Nat.shiftLeft_eq, Nat.mul_assoc]
  rw [hword, byteOr_c0, byteOr_f0, hlow, ha3, hc0, hf0, Nat.lor_comm (_ <<< 8),
    or_shiftLeft (k := 8) _ (by omega), or_shiftLeft (k := 10) _ (by omega),
    or_shiftLeft (k := 16) _ (by omega), or_shiftLeft (k := 20) _ (by omega),
    or_shiftLeft (k := 22) _ (by omega)]

theorem wordChars_encodeWord (a : Byte) (b c : Option Byte) : wordChars (encodeWord a b c) =
    [base64Chars.getD (a.val / 4) NUL, base64Chars.getD (a.val % 4 * 16 + byteOr b / 16) NUL,
      base64Chars.getD (byteOr b % 16 * 4 + byteOr c / 64) NUL,
      base64Chars.getD (byteOr c % 64) NUL] := by
  have hb := byteOr_lt b
  have hc := byteOr_lt c
  have ha := a.isLt
  have hmask (q k : ℕ) {m : ℕ} (hm : 2 ^ k = m) : q >>> k &&& 0x3f = q / m % 64 := by
    rw [Nat.shiftRight_eq_div_pow, hm]
    exact Nat.and_two_pow_sub_one_eq_mod _ 6
  rw [encodeWord_eq]
  generalize hq : byteOr c + byteOr c / 64 * 2 ^ 8 + byteOr b % 16 * 2 ^ 10 +
    byteOr b / 16 * 2 ^ 16 + a.val % 4 * 2 ^ 20 + a.val * 2 ^ 22 = q
  have h24 : (q &&& 0x3f3f3f3f) >>> 24 = a.val / 4 := by
    rw [Nat.shiftRight_and_distrib]
    refine (hmask q 24 (m := 16777216) rfl).trans ?_
    have hdiv : q / 16777216 = a.val / 4 := by omega
    omega
  have h16 : (q &&& 0x3f3f3f3f) >>> 16 &&& 0xff = a.val % 4 * 16 + byteOr b / 16 := by
    rw [Nat.shiftRight_and_distrib, Nat.and_assoc]
    refine (hmask q 16 (m := 65536) rfl).trans ?_
    have hdiv : q / 65536 = a.val * 64 + a.val % 4 * 16 + byteOr b / 16 := by omega
    omega
  have h8 : (q &&& 0x3f3f3f3f) >>> 8 &&& 0xff = byteOr b % 16 * 4 + byteOr c / 64 := by
    rw [Nat.shiftRight_and_distrib, Nat.and_assoc]
    refine (hmask q 8 (m := 256) rfl).trans ?_
    omega
  have h0 : q &&& 0x3f3f3f3f &&& 0xff = byteOr c % 64 := by
    rw [Nat.and_assoc]
    refine (hmask q 0 (m := 1) rfl).trans ?_
    omega
  rw [wordChars, h24, h16, h8, h0]

theorem wordChars_one (a : Byte) : wordChars (encodeWord a none none) =
    [base64Chars.getD (a.val / 4) NUL, base64Chars.getD (a.val % 4 * 16) NUL] ++
      [base64Chars.getD 0 NUL, base64Chars.getD 0 NUL] := wordChars_encodeWord a none none

theorem wordChars_two (a b : Byte) : wordChars (encodeWord a (some b) none) =
    [base64Chars.getD (a.val / 4) NUL, base64Chars.getD (a.val % 4 * 16 + b.val / 16) NUL,
      base64Chars.getD (b.val % 16 * 4) NUL] ++ [base64Chars.getD 0 NUL] :=
  wordChars_encodeWord a (some b) none

theorem wordChars_three (a b c : Byte) : wordChars (encodeWord a (some b) (some c)) =
    [base64Chars.getD (a.val / 4) NUL, base64Chars.getD (a.val % 4 * 16 + b.val / 16) NUL,
      base64Chars.getD (b.val % 16 * 4 + c.val / 64) NUL, base64Chars.getD (c.val % 64) NUL] :=
  wordChars_encodeWord a (some b) (some c)

/-- How many bytes the last group lacks. -/
def missing (data : List Byte) : ℕ := (3 - data.length % 3) % 3

theorem length_base64 (data : List Byte) :
    (base64 data).length = 4 * ((data.length + 2) / 3) := by
  fun_induction base64 data with
  | case1 => rfl
  | case2 a => simp
  | case3 a b => simp
  | case4 a b c data ih =>
      simp only [List.length_append, List.length_cons, List.length_nil, ih]
      omega

/-- The loop writes the encoding, with other characters where the padding belongs. -/
theorem encodeLoop_spec (data : List Byte) {pre rest : List Char}
    (h : (base64 data).length ≤ rest.length) :
    ∃ body pad, base64 data = body ++ List.replicate (missing data) '=' ∧
      pad.length = missing data ∧
      encodeLoop data ⟨pre ++ rest, pre.length⟩ =
        some (⟨pre ++ (body ++ pad) ++ rest.drop (base64 data).length,
          (pre ++ (body ++ pad)).length⟩, missing data) := by
  fun_induction base64 data generalizing pre rest with
  | case1 => exact ⟨[], [], rfl, rfl, by simp [encodeLoop, missing]⟩
  | case2 a =>
      refine ⟨[base64Chars.getD (a.val / 4) NUL, base64Chars.getD (a.val % 4 * 16) NUL],
        [base64Chars.getD 0 NUL, base64Chars.getD 0 NUL], rfl, rfl, ?_⟩
      rw [encodeLoop, wordChars_one, OutBlock.puts_eq (by exact h)]
      rfl
  | case3 a b =>
      refine ⟨[base64Chars.getD (a.val / 4) NUL,
        base64Chars.getD (a.val % 4 * 16 + b.val / 16) NUL,
        base64Chars.getD (b.val % 16 * 4) NUL], [base64Chars.getD 0 NUL], rfl, rfl, ?_⟩
      rw [encodeLoop, wordChars_two, OutBlock.puts_eq (by exact h)]
      rfl
  | case4 a b c data ih =>
      rw [List.length_append] at h
      have hmissing : missing (a :: b :: c :: data) = missing data := by
        simp only [missing, List.length_cons]
        omega
      rw [encodeLoop, wordChars_three]
      generalize hfour : [base64Chars.getD (a.val / 4) NUL, _, _, _] = four at h ⊢
      have hlen : four.length = 4 := hfour ▸ rfl
      obtain ⟨body, pad, hbody, hpad, hloop⟩ := @ih (pre ++ four) (rest.drop 4)
        (by rw [List.length_drop]; omega)
      refine ⟨four ++ body, pad, by rw [hmissing, hbody, List.append_assoc], hmissing ▸ hpad, ?_⟩
      have hdrop : (four ++ base64 data).length = 4 + (base64 data).length := by
        rw [List.length_append, hlen]
      rw [hmissing, OutBlock.puts_eq (by omega), Option.bind_some, hlen, hloop, List.drop_drop,
        hdrop]
      simp only [List.append_assoc]

theorem padOut_eq {body pad rest : List Char} (h : pad.length < 3) :
    padOut ⟨body ++ pad ++ rest, (body ++ pad).length⟩ pad.length =
      some ⟨body ++ List.replicate pad.length '=' ++ rest, (body ++ pad).length⟩ := by
  rcases pad with _ | ⟨x, _ | ⟨y, _ | ⟨z, pad⟩⟩⟩
  · rfl
  · have hx := @OutBlock.write_eq _ body rest '=' (body.length + 1) x
    simpa [padOut] using hx
  · have hy := @OutBlock.write_eq _ (body ++ [x]) rest '=' (body.length + 2) y
    have hx := @OutBlock.write_eq _ body ('=' :: rest) '=' (body.length + 2) x
    have hlast : (⟨body ++ x :: y :: rest, body.length + 2⟩ : OutBlock Char).write
        (body.length + 1) '=' = some ⟨body ++ x :: '=' :: rest, body.length + 2⟩ := by
      simpa using hy
    simpa [padOut, hlast] using hx
  · simp only [List.length_cons] at h
    omega

/-- `base64_block` fills its block with the standard encoding and a NUL. -/
theorem base64Block_eq (data : List Byte) :
    base64Block data = some (4 * ((data.length + 2) / 3), base64 data ++ [NUL]) := by
  have hlen := length_base64 data
  have hsize : (data.length + 2 - (data.length + 2) % 3) / 3 * 4 + 1 =
      (base64 data).length + 1 := by omega
  obtain ⟨body, pad, hbody, hpad, hloop⟩ := @encodeLoop_spec data []
    (List.replicate ((base64 data).length + 1) NUL) (by simp)
  have hrest : (List.replicate ((base64 data).length + 1) NUL).drop (base64 data).length =
      [NUL] := by
    rw [List.drop_replicate, Nat.add_sub_cancel_left]
    rfl
  have hlength : (base64 data).length = (body ++ pad).length := by
    rw [hbody, List.length_append, List.length_append, List.length_replicate, hpad]
  rw [base64Block, hsize]
  refine (congrArg (Option.bind · _) hloop).trans ?_
  have hsmall : pad.length < 3 := hpad ▸ Nat.mod_lt _ (by decide)
  rw [hrest, List.nil_append, ← hpad, Option.bind_some, padOut_eq hsmall, Option.bind_some, hpad,
    ← hbody, ← hlength, OutBlock.write_eq, Option.map_some, hlen]

theorem charValue_getD {i : ℕ} (h : i < 64) : charValue (base64Chars.getD i NUL) = i := by
  have hall : ∀ i : Fin 64, charValue (base64Chars.getD i.val NUL) = i.val := by decide +kernel
  exact hall ⟨i, h⟩

theorem getD_ne_pad {i : ℕ} (h : i < 64) : base64Chars.getD i NUL ≠ '=' := by
  have hall : ∀ i : Fin 64, base64Chars.getD i.val NUL ≠ '=' := by decide +kernel
  exact hall ⟨i, h⟩

theorem charValue_pad : charValue '=' = 0 := by decide +kernel

/-- The bytes come back from characters with values below 64. -/
theorem wordBytes_decodeWord {a b c d : Char} (ha : charValue a < 64) (hb : charValue b < 64)
    (hc : charValue c < 64) (hd : charValue d < 64) :
    wordBytes (decodeWord a b c d) =
      [Fin.ofNat 256 (charValue a * 4 + charValue b / 16),
        Fin.ofNat 256 (charValue b % 16 * 16 + charValue c / 4),
        Fin.ofNat 256 (charValue c % 4 * 64 + charValue d)] := by
  have hword : decodeWord a b c d = charValue d + charValue c * 2 ^ 6 + charValue b * 2 ^ 12 +
      charValue a * 2 ^ 18 := by
    rw [decodeWord, or_shiftLeft (k := 6) _ (by omega), or_shiftLeft (k := 12) _ (by omega),
      or_shiftLeft (k := 18) _ (by omega)]
  have hmask (q k : ℕ) {m : ℕ} (hm : 2 ^ k = m) : q >>> k &&& 0xff = q / m % 256 := by
    rw [Nat.shiftRight_eq_div_pow, hm]
    exact Nat.and_two_pow_sub_one_eq_mod _ 8
  rw [hword]
  generalize hq : charValue d + charValue c * 2 ^ 6 + charValue b * 2 ^ 12 +
    charValue a * 2 ^ 18 = q
  have h16 : q >>> 16 &&& 0xff = charValue a * 4 + charValue b / 16 := by
    refine (hmask q 16 (m := 65536) rfl).trans ?_
    have hdiv : q / 65536 = charValue a * 4 + charValue b / 16 := by omega
    omega
  have h8 : q >>> 8 &&& 0xff = charValue b % 16 * 16 + charValue c / 4 := by
    refine (hmask q 8 (m := 256) rfl).trans ?_
    have hdiv : q / 256 = charValue a * 1024 + charValue b * 16 + charValue c / 4 := by omega
    omega
  have h0 : q &&& 0xff = charValue c % 4 * 64 + charValue d := by
    refine (hmask q 0 (m := 1) rfl).trans ?_
    omega
  rw [wordBytes, h16, h8, h0]

theorem ofNat_byte {a : Byte} {n : ℕ} (h : n = a.val) : Fin.ofNat 256 n = a := by
  subst h
  exact Fin.ext (Nat.mod_eq_of_lt a.isLt)

/-- Four characters of the encoding give the bytes of their group, with zeros for the missing. -/
theorem wordBytes_group (a : Byte) (b c : Option Byte) {y z : Char}
    (hy : charValue y = byteOr b % 16 * 4 + byteOr c / 64) (hz : charValue z = byteOr c % 64) :
    wordBytes (decodeWord (base64Chars.getD (a.val / 4) NUL)
      (base64Chars.getD (a.val % 4 * 16 + byteOr b / 16) NUL) y z) =
        [a, b.getD 0, c.getD 0] := by
  have hb := byteOr_lt b
  have hc := byteOr_lt c
  have ha := a.isLt
  have hbyte (b : Option Byte) : (b.getD 0).val = byteOr b := by cases b <;> rfl
  have hw : charValue (base64Chars.getD (a.val / 4) NUL) = a.val / 4 := charValue_getD (by omega)
  have hx : charValue (base64Chars.getD (a.val % 4 * 16 + byteOr b / 16) NUL) =
      a.val % 4 * 16 + byteOr b / 16 := charValue_getD (by omega)
  rw [wordBytes_decodeWord (by omega) (by omega) (by omega) (by omega), hw, hx, hy, hz,
    ofNat_byte (a := a) (by omega), ofNat_byte (a := b.getD 0) (by rw [hbyte]; omega),
    ofNat_byte (a := c.getD 0) (by rw [hbyte]; omega)]

/-- The loop gives the bytes back, with a zero for every byte that was missing. -/
theorem decodeLoop_spec (data : List Byte) {pre rest : List Byte}
    (h : data.length + missing data ≤ rest.length) :
    decodeLoop (base64 data) ⟨pre ++ rest, pre.length⟩ =
      some ⟨pre ++ (data ++ List.replicate (missing data) 0) ++
          rest.drop (data.length + missing data),
        (pre ++ (data ++ List.replicate (missing data) 0)).length⟩ := by
  fun_induction base64 data generalizing pre rest with
  | case1 => simp [decodeLoop, missing]
  | case2 a =>
      have hgroup : wordBytes (decodeWord (base64Chars.getD (a.val / 4) NUL)
          (base64Chars.getD (a.val % 4 * 16) NUL) '=' '=') = [a, 0, 0] :=
        wordBytes_group a none none charValue_pad charValue_pad
      rw [decodeLoop, hgroup, OutBlock.puts_eq (by exact h)]
      rfl
  | case3 a b =>
      have hgroup : wordBytes (decodeWord (base64Chars.getD (a.val / 4) NUL)
          (base64Chars.getD (a.val % 4 * 16 + b.val / 16) NUL)
          (base64Chars.getD (b.val % 16 * 4) NUL) '=') = [a, b, 0] :=
        wordBytes_group a (some b) none (charValue_getD (i := b.val % 16 * 4) (by omega))
          charValue_pad
      rw [decodeLoop, hgroup, OutBlock.puts_eq (by exact h)]
      rfl
  | case4 a b c data ih =>
      have hgroup : wordBytes (decodeWord (base64Chars.getD (a.val / 4) NUL)
          (base64Chars.getD (a.val % 4 * 16 + b.val / 16) NUL)
          (base64Chars.getD (b.val % 16 * 4 + c.val / 64) NUL)
          (base64Chars.getD (c.val % 64) NUL)) = [a, b, c] :=
        wordBytes_group a (some b) (some c)
          (charValue_getD (i := b.val % 16 * 4 + c.val / 64) (by omega))
          (charValue_getD (i := c.val % 64) (by omega))
      have hmissing : missing (a :: b :: c :: data) = missing data := by
        simp only [missing, List.length_cons]
        omega
      rw [hmissing] at h ⊢
      simp only [List.length_cons] at h
      rw [List.cons_append, List.cons_append, List.cons_append, List.cons_append,
        List.nil_append, decodeLoop, hgroup, OutBlock.puts_eq (by simp; omega),
        Option.bind_some, ih (by simp; omega), List.drop_drop]
      have hdrop : [a, b, c].length + (data.length + missing data) =
          data.length + 1 + 1 + 1 + missing data := by
        simp only [List.length_cons, List.length_nil]
        omega
      rw [hdrop]
      simp only [List.append_assoc, List.cons_append, List.nil_append, List.length_cons]

/-- The padding is what the last two characters tell. -/
theorem base64_end {data : List Byte} (h : data ≠ []) : ∃ front before last,
    base64 data = front ++ [before, last] ∧ (last = '=' ↔ 0 < missing data) ∧
      (before = '=' ↔ 1 < missing data) := by
  fun_induction base64 data with
  | case1 => exact absurd rfl h
  | case2 a => exact ⟨[_, _], '=', '=', rfl, by simp [missing], by simp [missing]⟩
  | case3 a b =>
      have hne := getD_ne_pad (i := b.val % 16 * 4) (by omega)
      exact ⟨[_, _], _, '=', rfl, by simp [missing], iff_of_false hne (by simp [missing])⟩
  | case4 a b c data ih =>
      have hmissing : missing (a :: b :: c :: data) = missing data := by
        simp only [missing, List.length_cons]
        omega
      rw [hmissing]
      by_cases hdata : data = []
      · subst hdata
        have hy := getD_ne_pad (i := b.val % 16 * 4 + c.val / 64) (by omega)
        have hz := getD_ne_pad (i := c.val % 64) (by omega)
        exact ⟨[_, _], _, _, rfl, iff_of_false hz (by decide), iff_of_false hy (by decide)⟩
      · obtain ⟨front, before, last, heq, hend⟩ := ih hdata
        exact ⟨_ ++ front, before, last, by rw [heq, List.append_assoc], hend⟩

/-- `unbase64_block` takes the encoding back. -/
theorem unbase64Block_eq {data : List Byte} (h : data ≠ []) :
    unbase64Block (base64 data) =
      some (data.length, data ++ 0 :: List.replicate (missing data) 0) := by
  have hlen := length_base64 data
  have hmissing : missing data < 3 := Nat.mod_lt _ (by decide)
  have hround : (data.length + 2) / 3 * 3 = data.length + missing data := by
    unfold missing
    omega
  have hsize : (base64 data).length / 4 * 3 + 1 = data.length + missing data + 1 := by omega
  have hloop := @decodeLoop_spec data [] (List.replicate (data.length + missing data + 1) 0)
    (by simp)
  have hrest : (List.replicate (data.length + missing data + 1) (0 : Byte)).drop
      (data.length + missing data) = [0] := by
    rw [List.drop_replicate, Nat.add_sub_cancel_left]
    rfl
  obtain ⟨front, before, last, hend, hlast, hbefore⟩ := base64_end h
  have hreverse : (base64 data).reverse = last :: before :: front.reverse := by
    rw [hend, List.reverse_append]
    rfl
  have hcount : (let count := if last = '=' then data.length + missing data - 1
      else data.length + missing data
    if before = '=' then count - 1 else count) = data.length := by
    simp only [hlast, hbefore]
    split_ifs <;> omega
  have hwrite := @OutBlock.write_eq _ data (List.replicate (missing data) (0 : Byte)) 0
    (data.length + missing data) 0
  rw [unbase64Block, if_neg (by omega), hsize]
  refine (congrArg (Option.bind · _) hloop).trans ?_
  simp only [hreverse, hrest, List.nil_append, List.length_append, List.length_replicate,
    Option.bind_some] at hcount ⊢
  rw [hcount, List.append_assoc, ← List.replicate_succ']
  exact congrArg (Option.map _) hwrite

/-- Encoding and decoding give back every string. The encoding is the standard one, and both
functions stay in their blocks. -/
theorem unbase64Block_base64Block {data : List Byte} (h : data ≠ []) :
    ∃ text block, base64Block data = some (text.length, text ++ [NUL]) ∧ text = base64 data ∧
      text.length = 4 * ((data.length + 2) / 3) ∧
      unbase64Block text = some (data.length, block) ∧ block.take data.length = data := by
  have hlen := length_base64 data
  exact ⟨base64 data, _, by rw [base64Block_eq, hlen], rfl, hlen, unbase64Block_eq h,
    List.take_left' rfl⟩

theorem unbase64Block_base64Block_two :
    ∃ text block, base64Block [77, 97] = some (text.length, text ++ [NUL]) ∧
      text = base64 [77, 97] ∧ text.length = 4 * ((([77, 97] : List Byte).length + 2) / 3) ∧
      unbase64Block text = some (2, block) ∧ block.take 2 = [77, 97] :=
  unbase64Block_base64Block (by decide)

end Unirc
