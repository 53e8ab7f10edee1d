import Mathlib.Data.Finset.Basic
import Mathlib.Data.Finset.Image
import Unirc.Chars
import Unirc.Decimal

/-!
# Channel modes

`struct Mode`, the `flags` table of `channel_mode.c` and `channel_modes`, which
writes the mode text shown to clients and sent in a channel burst.
-/

namespace Unirc

/-- The bits of `Mode.mode`, one for each `MODE_*` constant. -/
inductive SimpleMode where
  | modePrivate | modeSecret | modeModerated | modeTopicLimit | modeInviteOnly
  | modeNoPrivMsgs | modeRegOnly | modeNoCtrl | modeOperOnly | modeModReg | modeNoSpam
  | modeBwSaver | modeNoNotices | modeChanReg | modeStripColor | modeNoFlood
  | modeSslOnly | modeForward
  deriving DecidableEq, Repr

abbrev KEYLEN : ℕ := 24
abbrev FORWARDLEN : ℕ := 128

structure Mode where
  mode : Finset SimpleMode
  limit : U32
  key : Buf KEYLEN
  forward : Buf FORWARDLEN
  msgs : U32
  per : U32
  deriving DecidableEq

namespace Mode

/-- The all-zero mode a new channel starts from. -/
def zero : Mode := ⟨∅, 0, Buf.empty, Buf.empty, 0, 0⟩

end Mode

open SimpleMode

/-- The table of `channel_mode.c`. -/
def flags : List (SimpleMode × Char) :=
  [(modeBwSaver, 'B'), (modeStripColor, 'C'), (modeModReg, 'M'), (modeNoNotices, 'N'),
    (modeOperOnly, 'O'), (modeRegOnly, 'R'), (modeNoSpam, 'S'), (modeNoCtrl, 'c'),
    (modeInviteOnly, 'i'), (modeModerated, 'm'), (modeNoPrivMsgs, 'n'), (modePrivate, 'p'),
    (modeChanReg, 'r'), (modeSecret, 's'), (modeTopicLimit, 't'), (modeNoFlood, 'd')]

/-- The letters of a table whose bit is set, in table order. -/
def letters (table : List (SimpleMode × Char)) (bits : Finset SimpleMode) : Str :=
  (table.filter fun f => f.1 ∈ bits).map Prod.snd

/-- `"%d"` of an unsigned field. -/
def formatInt (x : U32) : Str := Decimal.print x.toInt

/-- `"%lu"` of a timestamp. -/
def formatULong (t : ℤ) : Str := Nat.toDigits 10 (t % 2 ^ 64).toNat

/-- `"%d:%d"` of the flood pair. -/
def formatFlood (msgs per : U32) : Str := formatInt msgs ++ ':' :: formatInt per

/-- `channel_modes`: the letters and the parameter text. `toMember` is the test
`IsMember(client_p, chptr) || IsServer(client_p) || IsServices(client_p)`. Only
the limit moves `pbuf` forward: the later parameters are all printed at the
same place, each over the one before. -/
def channelModes (m : Mode) (toMember : Bool) : Str × Str :=
  let mbuf := '+' :: letters flags m.mode ++
    (if m.limit ≠ 0 then ['l'] else []) ++
    (if m.forward.val ≠ [] then ['F'] else []) ++
    (if m.key.val ≠ [] then ['k'] else []) ++
    (if m.msgs ≠ 0 ∧ m.per ≠ 0 then ['f'] else [])
  let start := if m.limit ≠ 0 ∧ toMember then formatInt m.limit ++ [' '] else []
  let pbuf : Str := if m.forward.val ≠ [] ∧ toMember then m.forward.val ++ [' '] else []
  let pbuf := if m.key.val ≠ [] ∧ (pbuf ≠ [] ∨ toMember) then m.key.val ++ [' '] else pbuf
  let pbuf := if (m.msgs ≠ 0 ∧ m.per ≠ 0) ∧ toMember then
    formatFlood m.msgs m.per ++ [' '] else pbuf
  (mbuf, start ++ pbuf)

theorem mem_letters {table : List (SimpleMode × Char)} {bits : Finset SimpleMode} {c : Char} :
    c ∈ letters table bits ↔ ∃ b ∈ bits, (b, c) ∈ table := by
  simp only [letters, List.mem_map, List.mem_filter, decide_eq_true_eq, Prod.exists,
    exists_eq_right]
  exact ⟨fun ⟨b, h, hb⟩ => ⟨b, hb, h⟩, fun ⟨b, hb, h⟩ => ⟨b, h, hb⟩⟩

/-- The value of a `"%d:%d"` parameter: the text before and after the colon. -/
def parseFlood (s : Str) : Option (ℤ × ℤ) :=
  match s.dropWhile (· ≠ ':') with
  | [] => none
  | _ :: rest => some (Decimal.atoi (s.takeWhile (· ≠ ':')), Decimal.atoi rest)

theorem length_formatInt_le (x : U32) : (formatInt x).length ≤ 11 :=
  Decimal.length_print_le (by decide) (by have := x.toInt_lt; have := x.le_toInt; omega)

theorem length_formatInt_small {x : U32} (hx : x.toNat < 99) : (formatInt x).length ≤ 2 := by
  rw [formatInt, BitVec.toInt_eq_toNat_of_lt (by omega)]
  exact (Nat.length_toDigits_le_iff (by decide) (by decide)).mpr (by omega)

theorem length_formatULong_le (t : ℤ) : (formatULong t).length ≤ 20 :=
  (Nat.length_toDigits_le_iff (by decide) (by decide)).mpr (by omega)

theorem length_letters_le (table : List (SimpleMode × Char)) (bits : Finset SimpleMode) :
    (letters table bits).length ≤ table.length := by
  rw [letters, List.length_map]
  exact List.length_filter_le _ _

theorem colon_not_mem_formatInt (x : U32) : ':' ∉ formatInt x := by
  intro h
  rcases Decimal.isDigit_of_mem_print h with h | h
  · exact absurd h (by decide)
  · exact absurd h (by decide)

theorem parseFlood_formatFlood (msgs per : U32) :
    parseFlood (formatFlood msgs per) = some (msgs.toInt, per.toInt) := by
  have hne : ∀ c ∈ formatInt msgs, decide (c ≠ ':') = true := by
    intro c hc
    simp only [decide_eq_true_eq]
    rintro rfl
    exact colon_not_mem_formatInt msgs hc
  have hd : (formatFlood msgs per).dropWhile (· ≠ ':') = ':' :: formatInt per := by
    rw [formatFlood, List.dropWhile_append_of_pos hne]
    simp
  have ht : (formatFlood msgs per).takeWhile (· ≠ ':') = formatInt msgs := by
    rw [formatFlood, List.takeWhile_append_of_pos hne]
    simp
  rw [parseFlood, hd, ht]
  simp only [formatInt, Decimal.atoi_print]

end Unirc
