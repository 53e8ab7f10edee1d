import Mathlib.Data.List.TakeWhile
import Unirc.Chars

/-!
# Fields of a ban file

`fbgets` of `fileio.c` and `getfield` of `csvlib.c`. A field is the text between two quotes; a
backslash keeps the character behind it from closing the field, also the NUL that ends the
line.
-/

namespace Unirc

abbrev NUL : Char := Char.ofNat 0

abbrev dquote : Char := Char.ofNat 0x22

abbrev backslash : Char := Char.ofNat 0x5c

/-- The text that starts at the front of a piece of memory. -/
def cstring (memory : List Char) : Str := memory.takeWhile (· ≠ NUL)

theorem cstring_append {t : Str} (ht : NUL ∉ t) (stale : List Char) :
    cstring (t ++ NUL :: stale) = t := by
  induction t with
  | nil => rfl
  | cons c t ih =>
      have hc : c ≠ NUL := fun h => ht (h ▸ List.mem_cons_self)
      rw [List.cons_append, cstring, List.takeWhile_cons_of_pos (by simpa using hc)]
      exact congrArg (c :: ·) (ih fun h => ht (List.mem_cons_of_mem c h))

theorem cstring_of_not_mem {t : Str} (ht : NUL ∉ t) : cstring t = t :=
  List.takeWhile_eq_self_iff.2 fun c hc => by simpa using fun h : c = NUL => ht (h ▸ hc)

theorem cstring_append_nul (field stale : List Char) :
    cstring (field ++ NUL :: stale) = cstring field := by
  by_cases hnul : NUL ∈ field
  · obtain ⟨t, rest, rfl, ht⟩ := List.eq_append_cons_of_mem hnul
    rw [List.append_assoc, List.cons_append, cstring_append ht, cstring_append ht]
  · rw [cstring_append hnul, cstring_of_not_mem hnul]

/-- The loop of `fbgets`: at most `n` characters, and the rest of the file. -/
def fbgetsLoop : ℕ → Str → Str × Str
  | 0, file => ([], file)
  | _ + 1, [] => ([], [])
  | n + 1, c :: file =>
      if c = '\n' then (['\n'], file)
      else if c = '\r' then (['\n'], if file.head? = some '\n' then file.tail else file)
      else
        let (buf, file) := fbgetsLoop n file
        (c :: buf, file)

def fbgets (len : ℕ) (file : Str) : Option (Str × Str) :=
  if file = [] then none else some (fbgetsLoop (len - 1) file)

/-- What `fbgets` returns, call after call; every call takes a character of the file. -/
def chunksLoop : ℕ → Str → List Str
  | 0, _ => []
  | fuel + 1, file =>
      match fbgets IRCD_BUFSIZE file with
      | none => []
      | some (chunk, file) => chunk :: chunksLoop fuel file

def fileChunks (file : Str) : List Str := chunksLoop file.length file

theorem fbgetsLoop_length_le (n : ℕ) (file : Str) : (fbgetsLoop n file).2.length ≤ file.length := by
  induction n generalizing file with
  | zero => exact le_rfl
  | succ n ih =>
      cases file with
      | nil => exact le_rfl
      | cons c file =>
          rw [fbgetsLoop]
          split
          · exact Nat.le_succ _
          · split
            · show (if file.head? = some '\n' then file.tail else file).length ≤ file.length + 1
              split
              · rw [List.length_tail]
                omega
              · exact Nat.le_succ _
            · exact (ih file).trans (Nat.le_succ _)

theorem fbgetsLoop_length_lt (n : ℕ) (c : Char) (file : Str) :
    (fbgetsLoop (n + 1) (c :: file)).2.length < (c :: file).length := by
  rw [fbgetsLoop, List.length_cons, Nat.lt_succ_iff]
  split
  · exact le_rfl
  · split
    · show (if file.head? = some '\n' then file.tail else file).length ≤ file.length
      split
      · rw [List.length_tail]
        omega
      · exact le_rfl
    · exact fbgetsLoop_length_le n file

theorem fbgets_of_ne_nil {file : Str} (h : file ≠ []) : ∃ chunk rest,
    fbgets IRCD_BUFSIZE file = some (chunk, rest) ∧ rest.length < file.length := by
  obtain ⟨c, file, rfl⟩ := List.exists_cons_of_ne_nil h
  exact ⟨_, _, if_neg (List.cons_ne_nil c file), fbgetsLoop_length_lt 510 c file⟩

theorem chunksLoop_of_le {fuel : ℕ} {file : Str} (h : file.length ≤ fuel) :
    chunksLoop fuel file = fileChunks file := by
  obtain ⟨n, hn⟩ : ∃ n, n = file.length := ⟨_, rfl⟩
  rw [fileChunks]
  induction n using Nat.strong_induction_on generalizing fuel file with
  | h n ih =>
      by_cases hnil : file = []
      · subst hnil
        cases fuel <;> rfl
      · obtain ⟨chunk, rest, hget, hlt⟩ := fbgets_of_ne_nil hnil
        obtain ⟨fuel, rfl⟩ : ∃ k, fuel = k + 1 := Nat.exists_eq_succ_of_ne_zero (by omega)
        obtain ⟨m, hm⟩ : ∃ m, file.length = m + 1 := Nat.exists_eq_succ_of_ne_zero (by omega)
        rw [hm, chunksLoop, chunksLoop, hget]
        refine congrArg (chunk :: ·) ?_
        have hrest : rest.length < n := by omega
        have hfuel : rest.length ≤ fuel := by omega
        have hm : rest.length ≤ m := by omega
        rw [ih _ hrest hfuel rfl, ih _ hrest hm rfl]

theorem fileChunks_of_fbgets {file chunk rest : Str}
    (h : fbgets IRCD_BUFSIZE file = some (chunk, rest)) :
    fileChunks file = chunk :: fileChunks rest := by
  have hnil : file ≠ [] := by
    rintro rfl
    cases h
  obtain ⟨chunk', rest', hget, hlt⟩ := fbgets_of_ne_nil hnil
  rw [h] at hget
  cases hget
  obtain ⟨m, hm⟩ : ∃ m, file.length = m + 1 := Nat.exists_eq_succ_of_ne_zero (by omega)
  rw [fileChunks, hm, chunksLoop, h]
  exact congrArg (chunk :: ·) (chunksLoop_of_le (by omega))

/-- A chunk of a file in a buffer that has been in use. -/
def overlay (chunk memory : List Char) : List Char :=
  chunk ++ NUL :: memory.drop (chunk.length + 1)

/-- The loop of `getfield` behind the opening quote: the field, and what is behind its closing
quote. -/
def closeField : List Char → Option (List Char × List Char)
  | [] => none
  | [c] => if c = dquote then some ([], []) else none
  | c :: d :: rest =>
      if c = NUL ∨ c = '\n' then none
      else if c = backslash then (closeField rest).map fun p => (c :: d :: p.1, p.2)
      else if c = dquote then some ([], d :: rest)
      else (closeField (d :: rest)).map fun p => (c :: p.1, p.2)

/-- `getfield` from position `p` of a buffer: where the field starts, the buffer with a NUL in
place of the closing quote, and the position behind it. -/
def getfield (buffer : List Char) (p : ℕ) : Option (ℕ × List Char × ℕ) :=
  let skipped := (buffer.drop p).takeWhile fun c => c ≠ NUL ∧ c ≠ dquote
  let field := p + skipped.length + 1
  if (buffer.drop (p + skipped.length)).head? = some dquote then
    (closeField (buffer.drop field)).map fun c =>
      (field, buffer.take field ++ c.1 ++ NUL :: c.2, field + c.1.length + 1)
  else none

/-- `getfield` on what is behind the position. -/
def readField (memory : List Char) : Option (List Char × List Char) :=
  match memory.dropWhile fun c => c ≠ NUL ∧ c ≠ dquote with
  | [] => none
  | c :: memory => if c = dquote then closeField memory else none

/-- The text ends with a backslash inside a field: `getfield` steps over the end of the line. -/
def runsOver : Str → Bool
  | [] => false
  | [c] => c = backslash
  | c :: d :: rest =>
      if c = NUL ∨ c = '\n' then false
      else if c = backslash then runsOver rest
      else if c = dquote then false
      else runsOver (d :: rest)

def fieldRunsOver (t : Str) : Bool :=
  match t.dropWhile (· ≠ dquote) with
  | [] => false
  | _ :: t => runsOver t

/-- The first `n` fields of a piece of memory. -/
def csvFields : ℕ → List Char → List Str
  | 0, _ => []
  | n + 1, memory =>
      match readField memory with
      | none => []
      | some (field, memory) => cstring field :: csvFields n memory

/-- One of the first `n` calls of `getfield` steps over the end of the line. -/
def csvRunsOver : ℕ → Str → Bool
  | 0, _ => false
  | n + 1, t =>
      match readField t with
      | none => fieldRunsOver t
      | some (_, t) => csvRunsOver n t

/-- `parse_csv_line` for `n` destinations: the positions of the fields and the buffer. -/
def parseCsvLine : ℕ → List Char → ℕ → List ℕ × List Char
  | 0, buffer, _ => ([], buffer)
  | n + 1, buffer, p =>
      match getfield buffer p with
      | none => ([], buffer)
      | some (field, buffer, p) =>
          let (fields, buffer) := parseCsvLine n buffer p
          (field :: fields, buffer)

/-- The texts at some positions of a buffer. -/
def textsAt (positions : List ℕ) (buffer : List Char) : List Str :=
  positions.map fun p => cstring (buffer.drop p)

theorem closeField_eq_some {t field rest : List Char} (h : closeField t = some (field, rest)) :
    t = field ++ dquote :: rest := by
  induction t using closeField.induct generalizing field with
  | case1 => cases h
  | case2 =>
      cases h
      rfl
  | case3 c hc =>
      rw [closeField, if_neg hc] at h
      cases h
  | case4 c d t hc =>
      rw [closeField, if_pos hc] at h
      cases h
  | case5 d t hc ih =>
      rw [closeField, if_neg hc, if_pos rfl] at h
      obtain ⟨⟨field', rest'⟩, hclose, heq⟩ := Option.map_eq_some_iff.mp h
      cases heq
      rw [ih hclose]
      rfl
  | case6 d t hc hb =>
      rw [closeField, if_neg hc, if_neg hb, if_pos rfl] at h
      cases h
      rfl
  | case7 c d t hc hb hq ih =>
      rw [closeField, if_neg hc, if_neg hb, if_neg hq] at h
      obtain ⟨⟨field', rest'⟩, hclose, heq⟩ := Option.map_eq_some_iff.mp h
      cases heq
      rw [ih hclose]
      rfl

theorem closeField_append {t field rest : Str} (h : closeField t = some (field, rest))
    (stale : List Char) : closeField (t ++ stale) = some (field, rest ++ stale) := by
  induction t using closeField.induct generalizing field with
  | case1 => cases h
  | case2 =>
      cases h
      cases stale <;> rfl
  | case3 c hc =>
      rw [closeField, if_neg hc] at h
      cases h
  | case4 c d t hc =>
      rw [closeField, if_pos hc] at h
      cases h
  | case5 d t hc ih =>
      rw [closeField, if_neg hc, if_pos rfl] at h
      obtain ⟨⟨field', rest'⟩, hclose, heq⟩ := Option.map_eq_some_iff.mp h
      cases heq
      rw [List.cons_append, List.cons_append, closeField, if_neg hc, if_pos rfl, ih hclose]
      rfl
  | case6 d t hc hb =>
      rw [closeField, if_neg hc, if_neg hb, if_pos rfl] at h
      cases h
      rw [List.cons_append, List.cons_append, closeField, if_neg hc, if_neg hb, if_pos rfl]
  | case7 c d t hc hb hq ih =>
      rw [closeField, if_neg hc, if_neg hb, if_neg hq] at h
      obtain ⟨⟨field', rest'⟩, hclose, heq⟩ := Option.map_eq_some_iff.mp h
      cases heq
      rw [List.cons_append, List.cons_append, closeField, if_neg hc, if_neg hb, if_neg hq,
        ← List.cons_append, ih hclose]
      rfl

/-- An open field ends with the line. -/
theorem closeField_append_nul {t : Str} (h : closeField t = none) (hover : runsOver t = false)
    (stale : List Char) : closeField (t ++ NUL :: stale) = none := by
  induction t using closeField.induct with
  | case1 => cases stale <;> rfl
  | case2 => cases h
  | case3 c hc =>
      have hb : c ≠ backslash := by simpa [runsOver] using hover
      rw [List.singleton_append, closeField, if_neg hb, if_neg hc]
      split
      · rfl
      · cases stale <;> rfl
  | case4 c d t hc => rw [List.cons_append, List.cons_append, closeField, if_pos hc]
  | case5 d t hc ih =>
      rw [closeField, if_neg hc, if_pos rfl, Option.map_eq_none_iff] at h
      rw [runsOver, if_neg hc, if_pos rfl] at hover
      rw [List.cons_append, List.cons_append, closeField, if_neg hc, if_pos rfl, ih h hover]
      rfl
  | case6 d t hc hb =>
      rw [closeField, if_neg hc, if_neg hb, if_pos rfl] at h
      cases h
  | case7 c d t hc hb hq ih =>
      rw [closeField, if_neg hc, if_neg hb, if_neg hq, Option.map_eq_none_iff] at h
      rw [runsOver, if_neg hc, if_neg hb, if_neg hq] at hover
      rw [List.cons_append, List.cons_append, closeField, if_neg hc, if_neg hb, if_neg hq,
        ← List.cons_append, ih h hover]
      rfl

section Quote

variable {skip memory : List Char} {t : Str}

theorem dropWhile_skip {c : Char} (hnul : NUL ∉ skip) (hskip : dquote ∉ skip)
    (hc : c = NUL ∨ c = dquote) :
    (skip ++ c :: memory).dropWhile (fun c => c ≠ NUL ∧ c ≠ dquote) = c :: memory := by
  rw [List.dropWhile_append_of_pos, List.dropWhile_cons_of_neg]
  · rcases hc with rfl | rfl <;> decide
  · intro d hd
    exact decide_eq_true ⟨fun h => hnul (h ▸ hd), fun h => hskip (h ▸ hd)⟩

theorem readField_append (hnul : NUL ∉ skip) (hskip : dquote ∉ skip) :
    readField (skip ++ dquote :: memory) = closeField memory := by
  rw [readField, dropWhile_skip hnul hskip (Or.inr rfl)]
  rfl

theorem readField_no_quote (hnul : NUL ∉ skip) (hskip : dquote ∉ skip) (stale : List Char) :
    readField (skip ++ NUL :: stale) = none := by
  rw [readField, dropWhile_skip hnul hskip (Or.inl rfl)]
  rfl

theorem fieldRunsOver_append (hskip : dquote ∉ skip) :
    fieldRunsOver (skip ++ dquote :: t) = runsOver t := by
  rw [fieldRunsOver, List.dropWhile_append_of_pos
    fun c hc => by simpa using fun h : c = dquote => hskip (h ▸ hc)]
  rfl

theorem readField_of_not_mem (ht : dquote ∉ t) : readField t = none := by
  rw [readField]
  split
  · rfl
  · rename_i c memory hdrop
    refine if_neg fun hc => ht ?_
    have hmem : c ∈ t.dropWhile fun c => c ≠ NUL ∧ c ≠ dquote := hdrop ▸ List.mem_cons_self
    exact hc ▸ (List.dropWhile_sublist _).mem hmem

theorem readField_eq_some {field rest : Str} (hnul : NUL ∉ t)
    (h : readField t = some (field, rest)) :
    ∃ skip body, t = skip ++ dquote :: body ∧ dquote ∉ skip ∧
      closeField body = some (field, rest) := by
  by_cases hquote : dquote ∈ t
  · obtain ⟨skip, body, rfl, hskip⟩ := List.eq_append_cons_of_mem hquote
    refine ⟨skip, body, rfl, hskip, ?_⟩
    rwa [readField_append (fun hmem => hnul (List.mem_append_left _ hmem)) hskip] at h
  · rw [readField_of_not_mem hquote] at h
    cases h

theorem NUL_not_mem_of_read {field rest : Str} (hnul : NUL ∉ t)
    (h : readField t = some (field, rest)) : NUL ∉ field ∧ NUL ∉ rest := by
  obtain ⟨skip, body, rfl, -, hclose⟩ := readField_eq_some hnul h
  rw [closeField_eq_some hclose] at hnul
  constructor <;> intro h <;> exact hnul (by simp [h])

/-- A field of the line is read without a look behind the line. -/
theorem readField_append_nul (hnul : NUL ∉ t) (hover : readField t = none → fieldRunsOver t = false)
    (stale : List Char) : readField (t ++ NUL :: stale) =
      (readField t).map fun r => (r.1, r.2 ++ NUL :: stale) := by
  by_cases hquote : dquote ∈ t
  · obtain ⟨skip, body, rfl, hskip⟩ := List.eq_append_cons_of_mem hquote
    have hnul : NUL ∉ skip := fun hmem => hnul (List.mem_append_left _ hmem)
    rw [readField_append hnul hskip, fieldRunsOver_append hskip] at hover
    rw [List.append_assoc, List.cons_append, readField_append hnul hskip,
      readField_append hnul hskip]
    cases hclose : closeField body with
    | none => exact closeField_append_nul hclose (hover hclose) stale
    | some r => exact closeField_append hclose _
  · rw [readField_no_quote hnul hquote, readField_of_not_mem hquote]
    rfl

theorem csvFields_append_nul {n : ℕ} (hnul : NUL ∉ t) (hover : csvRunsOver n t = false)
    (stale : List Char) : csvFields n (t ++ NUL :: stale) = csvFields n t := by
  induction n generalizing t with
  | zero => rfl
  | succ n ih =>
      rw [csvFields, csvFields]
      rw [csvRunsOver] at hover
      cases hread : readField t with
      | none =>
          rw [hread] at hover
          rw [readField_append_nul hnul fun _ => hover, hread]
          rfl
      | some r =>
          rw [hread] at hover
          rw [readField_append_nul hnul (by simp [hread]), hread]
          exact congrArg (cstring r.1 :: ·) (ih (NUL_not_mem_of_read hnul hread).2 hover)

end Quote

section Getfield

variable {buffer : List Char} {p n : ℕ}

theorem getfield_eq (hp : p ≤ buffer.length) :
    ∃ o, p ≤ o ∧ o ≤ buffer.length ∧ getfield buffer p = (readField (buffer.drop p)).map fun r =>
      (o, buffer.take o ++ r.1 ++ NUL :: r.2, o + r.1.length + 1) := by
  have hsplit := List.takeWhile_append_dropWhile (p := fun c => c ≠ NUL ∧ c ≠ dquote)
    (l := buffer.drop p)
  rw [getfield, readField]
  generalize (buffer.drop p).takeWhile (fun c => c ≠ NUL ∧ c ≠ dquote) = skipped at *
  generalize (buffer.drop p).dropWhile (fun c => c ≠ NUL ∧ c ≠ dquote) = behind at *
  have hbehind : buffer.drop (p + skipped.length) = behind := by
    rw [← List.drop_drop, ← hsplit, List.drop_left]
  rw [hbehind]
  cases behind with
  | nil => exact ⟨p, le_rfl, hp, rfl⟩
  | cons c body =>
      have hlen := congrArg List.length hbehind
      rw [List.length_drop, List.length_cons] at hlen
      have hbody : buffer.drop (p + skipped.length + 1) = body := by
        rw [← List.drop_drop, hbehind]
        rfl
      refine ⟨p + skipped.length + 1, by omega, by omega, ?_⟩
      rw [hbody]
      by_cases hc : c = dquote
      · rw [hc]
        rfl
      · simp only [List.head?_cons, Option.some.injEq, if_neg hc]
        rfl

/-- The fields that `parse_csv_line` finds, and the part of the buffer that it leaves. -/
theorem parseCsvLine_spec (hp : p ≤ buffer.length) :
    textsAt (parseCsvLine n buffer p).1 (parseCsvLine n buffer p).2 =
      csvFields n (buffer.drop p) ∧ (parseCsvLine n buffer p).2.take p = buffer.take p := by
  induction n generalizing buffer p with
  | zero => exact ⟨rfl, rfl⟩
  | succ n ih =>
      obtain ⟨o, hpo, hlen, hget⟩ := getfield_eq hp
      cases hread : readField (buffer.drop p) with
      | none =>
          rw [hread] at hget
          have hparse : parseCsvLine (n + 1) buffer p = ([], buffer) := by
            rw [parseCsvLine, hget]
            rfl
          rw [hparse, csvFields, hread]
          exact ⟨rfl, rfl⟩
      | some r =>
          obtain ⟨field, rest⟩ := r
          rw [hread] at hget
          obtain ⟨final, hfinal⟩ : ∃ final, final = parseCsvLine n
              (buffer.take o ++ field ++ NUL :: rest) (o + field.length + 1) := ⟨_, rfl⟩
          have hparse : parseCsvLine (n + 1) buffer p = (o :: final.1, final.2) := by
            rw [parseCsvLine, hget, hfinal]
            rfl
          have ho : (buffer.take o).length = o := List.length_take_of_le hlen
          have hsplit : buffer.take o ++ field ++ NUL :: rest =
              (buffer.take o ++ field ++ [NUL]) ++ rest := by simp
          have hq : (buffer.take o ++ field ++ [NUL]).length = o + field.length + 1 := by
            rw [List.length_append, List.length_append, ho, List.length_singleton]
          have hlen : o + field.length + 1 ≤ (buffer.take o ++ field ++ NUL :: rest).length := by
            rw [hsplit, List.length_append, hq]
            exact Nat.le_add_right _ _
          obtain ⟨hfields, htake⟩ := ih hlen
          rw [← hfinal] at hfields htake
          rw [hsplit, List.drop_left' hq] at hfields
          rw [hsplit, List.take_left' hq] at htake
          rw [hparse, csvFields, hread]
          refine ⟨?_, ?_⟩
          · have hfirst : final.2.drop o = field ++ NUL :: final.2.drop (o + field.length + 1) := by
              conv_lhs => rw [← List.take_append_drop (o + field.length + 1) final.2, htake]
              rw [List.append_assoc, List.append_assoc, List.drop_left' ho]
              rfl
            rw [textsAt, List.map_cons, hfirst, cstring_append_nul, ← textsAt, hfields]
          · have hp : p = min p (o + field.length + 1) := by omega
            rw [hp, ← List.take_take, htake, List.append_assoc, List.take_append_of_le_length
              (by omega), List.take_take]
            congr 1
            omega

end Getfield

end Unirc
