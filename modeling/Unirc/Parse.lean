import Unirc.Tokens

/-!
# Lines and the parameter array

A line is cut into its command and its parameters. The array that `string_to_array` fills and
the handlers get is the same for all messages, so behind the terminating NULL stands what
earlier messages left there.
-/

namespace Unirc

abbrev MAXPARA : ℕ := 15

/-- The command of a line and its parameters. -/
def splitLine (line : Str) : Str × List Str :=
  let ch :=
    match skipBlanks line with
    | ':' :: sender =>
        skipBlanks (if ' ' ∈ sender then (sender.dropWhile (· ≠ ' ')).drop 1 else sender)
    | ch => ch
  (ch.takeWhile (· ≠ ' '), stringToArray ((ch.dropWhile (· ≠ ' ')).drop 1))

theorem splitLine_command {sender command : Str} (hsender : ' ' ∉ sender) (hcommand : ' ' ∉ command)
    (hne : command ≠ []) (rest : Str) :
    splitLine (':' :: (sender ++ ' ' :: (command ++ ' ' :: rest))) =
      (command, stringToArray rest) := by
  have hskip : skipBlanks (command ++ ' ' :: rest) = command ++ ' ' :: rest := by
    obtain ⟨c, cs, rfl⟩ := List.exists_cons_of_ne_nil hne
    have hc : c ≠ ' ' := fun h => hcommand (h ▸ List.mem_cons_self)
    simp [skipBlanks, hc]
  have hstart (t : Str) : skipBlanks (':' :: t) = ':' :: t := by simp [skipBlanks]
  have hmem : ' ' ∈ sender ++ ' ' :: (command ++ ' ' :: rest) :=
    List.mem_append_right _ List.mem_cons_self
  unfold splitLine
  rw [hstart]
  generalize ht : sender ++ ' ' :: (command ++ ' ' :: rest) = t at hmem
  change ((skipBlanks (if ' ' ∈ t then (t.dropWhile (· ≠ ' ')).drop 1 else t)).takeWhile
    (· ≠ ' '), stringToArray (((skipBlanks (if ' ' ∈ t then (t.dropWhile (· ≠ ' ')).drop 1
      else t)).dropWhile (· ≠ ' ')).drop 1)) = _
  rw [if_pos hmem, ← ht, dropWhile_notBlank hsender, List.drop_one, List.tail_cons, hskip,
    takeWhile_notBlank hcommand, dropWhile_notBlank hcommand, List.drop_one, List.tail_cons]

theorem splitLine_noPrefix {command : Str} (hcommand : ' ' ∉ command) (hne : command ≠ [])
    (hcolon : command.head? ≠ some ':') (rest : Str) :
    splitLine (command ++ ' ' :: rest) = (command, stringToArray rest) := by
  obtain ⟨c, t, rfl⟩ := List.exists_cons_of_ne_nil hne
  have hc : c ≠ ' ' := fun h => hcommand (h ▸ List.mem_cons_self)
  have hc' : c ≠ ':' := fun h => hcolon (h ▸ rfl)
  have hskip : skipBlanks (c :: t ++ ' ' :: rest) = c :: (t ++ ' ' :: rest) := by
    simp [skipBlanks, hc]
  have htake := takeWhile_notBlank hcommand rest
  have hdrop := dropWhile_notBlank hcommand rest
  rw [List.cons_append] at htake hdrop
  unfold splitLine
  rw [hskip]
  split
  · rename_i heq
    exact absurd (List.cons.inj heq).1 hc'
  · simp only [htake, hdrop, List.drop_one, List.tail_cons]

theorem length_splitArgs (n : ℕ) (p : Str) : (splitArgs n p).length ≤ n + 1 := by
  induction n generalizing p with
  | zero =>
      rw [splitArgs]
      split
      · exact Nat.zero_le _
      · exact Nat.le_refl _
  | succ n ih =>
      rw [splitArgs]
      split
      · exact Nat.zero_le _
      · split
        · exact Nat.succ_le_succ (Nat.zero_le _)
        · split
          · exact Nat.succ_le_succ (Nat.zero_le _)
          · exact Nat.succ_le_succ (ih _)

/-- The array has room for the parameters and their terminator. -/
theorem length_stringToArray (s : Str) : (stringToArray s).length < MAXPARA :=
  Nat.lt_succ_of_le (length_splitArgs 13 s)

/-- Where the text of an element of the array comes from: this message, an earlier one, or
a handler that wrote it, to memory that may have been freed since. -/
inductive Origin where
  | message | earlier | name | copy | freed
  deriving DecidableEq

/-- An element of `parv`; the text is none for NULL. -/
structure Param where
  origin : Origin
  text : Option Str

/-- The array for the parameters of a message, where `old` is what was there. -/
def paraArray (params : List Str) (old : ℕ → Option Str) (name : Str) (i : ℕ) : Param :=
  if i = 0 then ⟨.name, some name⟩
  else if i ≤ params.length + 1 then ⟨.message, params[i - 1]?⟩
  else ⟨.earlier, old i⟩

theorem paraArray_message {params : List Str} {old : ℕ → Option Str} {name : Str} {i : ℕ}
    (h₀ : 0 < i) (h : i ≤ params.length + 1) :
    paraArray params old name i = ⟨.message, params[i - 1]?⟩ := by
  rw [paraArray, if_neg h₀.ne', if_pos h]

end Unirc
