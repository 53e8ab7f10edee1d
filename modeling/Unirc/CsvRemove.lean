import Mathlib.Algebra.Order.BigOperators.Group.List
import Unirc.CsvLoad

/-!
# Removal of a ban

`remove_conf_line` and `flush_write`: the lines of a ban file are written to a new file, but for
those that match, and a comment falls through to the code for the other lines.
-/

namespace Unirc

/-- What the calls on files return: how many characters can be read, how many of them each write
takes, and whether the files are opened and renamed. -/
structure FileCalls where
  opensIn : Bool
  opensOut : Bool
  readable : ℕ
  write : ℕ → Option ℕ
  renames : Bool

structure RemoveState where
  out : Str
  writes : ℕ
  pairme : Bool
  buff : List Char

/-- The function that the patterns are compared with: `strcmp` for regular expressions. -/
def cmpfunc : ConfType → Str → Str → Bool
  | .rkline, s, t | .rxline, s, t => s = t
  | _, s, t => !irccmp s t

section Remove

variable (calls : FileCalls) (cmp : Str → Str → Bool) (pat1 : Str) (pat2 : Option Str)

def flushWrite (s : RemoveState) (buf : Str) : Option RemoveState :=
  (calls.write s.writes).map fun n => { s with
    out := s.out ++ buf.take n
    writes := s.writes + 1 }

/-- Whether the fields that are found are the patterns. -/
def fieldsMatch : List Str → Bool
  | found1 :: found => cmp pat1 found1 && pat2.all fun pat2 => found.head?.any (cmp pat2)
  | [] => false

/-- The calls of `getfield` for one line. -/
def wanted : ℕ := if pat2.isSome then 2 else 1

def isComment (line : Str) : Bool := line = [] || line.head? = some '#'

/-- The comparison with the patterns. -/
def removeParsed (s : RemoveState) (buf : Str) : Option RemoveState :=
  let (positions, buff) := parseCsvLine (wanted pat2) (overlay buf s.buff) 0
  if fieldsMatch cmp pat1 pat2 (textsAt positions buff) then
    some { s with pairme := true, buff }
  else flushWrite calls { s with buff } buf

def removeLine (s : RemoveState) (chunk : Str) : Option RemoveState := do
  let buf := cstring chunk
  let s ← if isComment buf then flushWrite calls s buf else some s
  removeParsed calls cmp pat1 pat2 s buf

/-- `remove_conf_line`: what it returns, and what the file holds then. -/
def removeConfLine (type : ConfType) (pat1 : Str) (pat2 : Option Str) (file : Str)
    (buff : List Char) : ℤ × Str :=
  if calls.opensIn && calls.opensOut then
    match (fileChunks (file.take calls.readable)).foldlM (removeLine calls (cmpfunc type) pat1 pat2)
        ⟨[], 0, false, buff⟩ with
    | none => (-1, file)
    | some s => if s.pairme then (1, if calls.renames then s.out else file) else (0, file)
  else (-1, file)

end Remove

/-- The lines of a file, each with its newline. -/
def rawLines : Str → List Str
  | [] => []
  | c :: file =>
      if c = '\n' then ['\n'] :: rawLines file
      else match rawLines file with
        | [] => [[c]]
        | line :: lines => (c :: line) :: lines

section Spec

variable (calls : FileCalls) (cmp : Str → Str → Bool) (pat1 : Str) (pat2 : Option Str)

def lineMatches (line : Str) : Bool := fieldsMatch cmp pat1 pat2 (csvFields (wanted pat2) line)

def keptLine (line : Str) : Bool := isComment line || !lineMatches cmp pat1 pat2 line

/-- The lines that match are gone and the others are left as they are; after a failure all are. -/
def RemovesExactly (calls : FileCalls) (type : ConfType) (pat1 : Str) (pat2 : Option Str)
    (file : Str) : Prop :=
  ∀ buff, buff.length = IRCD_BUFSIZE →
    let result := removeConfLine calls type pat1 pat2 file buff
    (result.1 = -1 → result.2 = file) ∧ (result.1 ≠ -1 →
      result.2 = ((rawLines file).filter (keptLine (cmpfunc type) pat1 pat2)).flatten)

/-- A line that `fbgets` returns as it is, and whose fields end in it. -/
structure PlainLine (line : Str) : Prop where
  length : line.length < IRCD_BUFSIZE
  nul : NUL ∉ line
  cr : '\r' ∉ line
  within : csvRunsOver (wanted pat2) line = false

/-- All of the file is read, no write is a part of one, and the new file is renamed. -/
structure FileCalls.Whole (file : Str) : Prop where
  readable : file.length ≤ calls.readable
  write : ∀ i, ∀ n ∈ calls.write i, IRCD_BUFSIZE ≤ n
  renames : calls.renames = true

/-- No call fails. -/
structure FileCalls.Succeed : Prop where
  opensIn : calls.opensIn = true
  opensOut : calls.opensOut = true
  write : ∀ i, (calls.write i).isSome = true

/-- No line is removed, or no comment is left to be written twice. -/
def NotDoubled (file : Str) : Prop :=
  (∀ line ∈ rawLines file, lineMatches cmp pat1 pat2 line = false) ∨
    ∀ line ∈ rawLines file, isComment line = true → lineMatches cmp pat1 pat2 line = true

end Spec

section RawLines

theorem rawLines_flatten (file : Str) : (rawLines file).flatten = file := by
  induction file with
  | nil => rfl
  | cons c file ih =>
      rw [rawLines]
      split
      · rename_i hc
        rw [List.flatten_cons, ih, hc]
        rfl
      · cases hlines : rawLines file with
        | nil =>
            rw [hlines] at ih
            rw [← ih]
            rfl
        | cons line lines =>
            rw [hlines] at ih
            rw [← ih]
            rfl

theorem ne_nil_of_mem_rawLines {file line : Str} (h : line ∈ rawLines file) : line ≠ [] := by
  induction file generalizing line with
  | nil => cases h
  | cons c file ih =>
      rw [rawLines] at h
      split at h
      · rcases List.mem_cons.mp h with rfl | h
        · exact List.cons_ne_nil _ _
        · exact ih h
      · split at h
        · rw [List.mem_singleton.mp h]
          exact List.cons_ne_nil _ _
        · rename_i line' lines hlines
          rcases List.mem_cons.mp h with rfl | h
          · exact List.cons_ne_nil _ _
          · exact ih (hlines ▸ List.mem_cons_of_mem line' h)

/-- The first call of `fbgets` returns the first line. -/
theorem fbgetsLoop_rawLines {file line : Str} {lines : List Str} {n : ℕ}
    (h : rawLines file = line :: lines) (hlen : line.length ≤ n) (hcr : '\r' ∉ line) :
    ∃ rest, fbgetsLoop n file = (line, rest) ∧ rawLines rest = lines := by
  induction file generalizing line n with
  | nil => cases h
  | cons c file ih =>
      obtain ⟨n, rfl⟩ : ∃ k, n = k + 1 := Nat.exists_eq_succ_of_ne_zero fun hn => by
        have hnil := ne_nil_of_mem_rawLines (h ▸ List.mem_cons_self : line ∈ rawLines (c :: file))
        exact hnil (List.eq_nil_of_length_eq_zero (by omega))
      rw [rawLines] at h
      split at h
      · rename_i hc
        obtain ⟨rfl, rfl⟩ := List.cons.inj h
        exact ⟨file, by rw [fbgetsLoop, if_pos hc], rfl⟩
      · rename_i hc
        split at h
        · rename_i hlines
          obtain ⟨rfl, rfl⟩ := List.cons.inj h
          have hfile : file = [] := by rw [← rawLines_flatten file, hlines, List.flatten_nil]
          have hc' : c ≠ '\r' := fun h => hcr (h ▸ List.mem_cons_self)
          refine ⟨[], ?_, rfl⟩
          rw [fbgetsLoop, if_neg hc, if_neg hc', hfile]
          cases n <;> rfl
        · rename_i line' lines' hlines
          obtain ⟨rfl, rfl⟩ := List.cons.inj h
          rw [List.length_cons] at hlen
          obtain ⟨rest, hloop, hrest⟩ := ih hlines (Nat.le_of_succ_le_succ hlen)
            fun h => hcr (List.mem_cons_of_mem c h)
          have hc' : c ≠ '\r' := fun h => hcr (h ▸ List.mem_cons_self)
          refine ⟨rest, ?_, hrest⟩
          rw [fbgetsLoop, if_neg hc, if_neg hc', hloop]

theorem fileChunks_eq_rawLines {file : Str}
    (h : ∀ line ∈ rawLines file, line.length < IRCD_BUFSIZE ∧ '\r' ∉ line) :
    fileChunks file = rawLines file := by
  generalize hlines : rawLines file = lines at *
  induction lines generalizing file with
  | nil => rw [← rawLines_flatten file, hlines, List.flatten_nil]; rfl
  | cons line lines ih =>
      have hline := h line List.mem_cons_self
      have hnil : file ≠ [] := by
        rintro rfl
        cases hlines
      obtain ⟨rest, hloop, hrest⟩ := fbgetsLoop_rawLines (n := IRCD_BUFSIZE - 1) hlines
        (Nat.le_sub_one_of_lt hline.1) hline.2
      have hget : fbgets IRCD_BUFSIZE file = some (line, rest) := by
        rw [fbgets, if_neg hnil, hloop]
      rw [fileChunks_of_fbgets hget, ih hrest fun l hl => h l (List.mem_cons_of_mem line hl)]

end RawLines

section Remove

variable {calls : FileCalls} {cmp : Str → Str → Bool} {pat1 : Str} {pat2 : Option Str}

/-- What is written for a line. -/
def written (cmp : Str → Str → Bool) (pat1 : Str) (pat2 : Option Str) (line : Str) : Str :=
  (if isComment line then line else []) ++ if lineMatches cmp pat1 pat2 line then [] else line

theorem flushWrite_eq {s : RemoveState} {line : Str}
    (hwrite : ∀ i, ∀ n ∈ calls.write i, IRCD_BUFSIZE ≤ n) (hlen : line.length < IRCD_BUFSIZE) :
    flushWrite calls s line = none ∧ calls.write s.writes = none ∨
      flushWrite calls s line = some { s with out := s.out ++ line, writes := s.writes + 1 } := by
  rw [flushWrite]
  cases hroom : calls.write s.writes with
  | none => exact Or.inl ⟨rfl, rfl⟩
  | some n =>
      rw [Option.map_some, List.take_of_length_le (hlen.le.trans (hwrite _ n hroom))]
      exact Or.inr rfl

theorem textsAt_overlay {line : Str} (hline : PlainLine pat2 line) (buff : List Char) :
    textsAt (parseCsvLine (wanted pat2) (overlay line buff) 0).1
      (parseCsvLine (wanted pat2) (overlay line buff) 0).2 = csvFields (wanted pat2) line := by
  rw [(parseCsvLine_spec (Nat.zero_le _)).1, List.drop_zero, overlay,
    csvFields_append_nul hline.nul hline.within]

theorem removeParsed_eq {s : RemoveState} {line : Str}
    (hwrite : ∀ i, ∀ n ∈ calls.write i, IRCD_BUFSIZE ≤ n) (hline : PlainLine pat2 line) :
    removeParsed calls cmp pat1 pat2 s line = none ∧ (∃ i, calls.write i = none) ∨
      ∃ writes buff, removeParsed calls cmp pat1 pat2 s line =
        some ⟨s.out ++ (if lineMatches cmp pat1 pat2 line then [] else line), writes,
          s.pairme || lineMatches cmp pat1 pat2 line, buff⟩ := by
  rw [removeParsed]
  simp only
  rw [textsAt_overlay hline, ← lineMatches]
  generalize (parseCsvLine (wanted pat2) (overlay line s.buff) 0).2 = buff
  cases lineMatches cmp pat1 pat2 line with
  | true => exact Or.inr ⟨s.writes, buff, by simp⟩
  | false =>
      rw [if_neg Bool.false_ne_true]
      rcases flushWrite_eq (s := { s with buff }) hwrite hline.length with ⟨h, hfail⟩ | h
      · exact Or.inl ⟨h, _, hfail⟩
      · exact Or.inr ⟨s.writes + 1, buff, by rw [h]; simp⟩

theorem removeLine_eq {s : RemoveState} {line : Str}
    (hwrite : ∀ i, ∀ n ∈ calls.write i, IRCD_BUFSIZE ≤ n) (hline : PlainLine pat2 line) :
    removeLine calls cmp pat1 pat2 s line = none ∧ (∃ i, calls.write i = none) ∨
      ∃ writes buff, removeLine calls cmp pat1 pat2 s line =
        some ⟨s.out ++ written cmp pat1 pat2 line, writes,
          s.pairme || lineMatches cmp pat1 pat2 line, buff⟩ := by
  rw [removeLine, cstring_of_not_mem hline.nul, written]
  by_cases hcomment : isComment line = true
  · rw [if_pos hcomment, if_pos hcomment]
    rcases flushWrite_eq (s := s) hwrite hline.length with ⟨h, hfail⟩ | h
    · rw [h]
      exact Or.inl ⟨rfl, _, hfail⟩
    · rw [h, ← List.append_assoc]
      exact removeParsed_eq (s := { s with out := s.out ++ line, writes := s.writes + 1 }) hwrite
        hline
  · rw [if_neg hcomment, if_neg hcomment, List.nil_append]
    exact removeParsed_eq (s := s) hwrite hline

theorem foldlM_removeLine (s : RemoveState) {lines : List Str}
    (hwrite : ∀ i, ∀ n ∈ calls.write i, IRCD_BUFSIZE ≤ n)
    (hlines : ∀ line ∈ lines, PlainLine pat2 line) :
    lines.foldlM (removeLine calls cmp pat1 pat2) s = none ∧ (∃ i, calls.write i = none) ∨
      ∃ writes buff, lines.foldlM (removeLine calls cmp pat1 pat2) s =
        some ⟨s.out ++ lines.flatMap (written cmp pat1 pat2), writes,
          s.pairme || lines.any (lineMatches cmp pat1 pat2), buff⟩ := by
  induction lines generalizing s with
  | nil => exact Or.inr ⟨s.writes, s.buff, by simp⟩
  | cons line lines ih =>
      rw [List.foldlM_cons]
      rcases @removeLine_eq calls cmp pat1 pat2 s line hwrite (hlines line List.mem_cons_self) with
        ⟨h, hfail⟩ | ⟨writes, buff, h⟩
      · rw [h]
        exact Or.inl ⟨rfl, hfail⟩
      · rw [h, Option.bind_eq_bind, Option.bind_some, List.flatMap_cons, List.any_cons,
          ← List.append_assoc, ← Bool.or_assoc]
        exact ih _ fun l hl => hlines l (List.mem_cons_of_mem line hl)

/-- What `remove_conf_line` does with a plain file. -/
theorem removeConfLine_eq {file : Str} (hcalls : calls.Whole file)
    (hplain : ∀ line ∈ rawLines file, PlainLine pat2 line) (type : ConfType) (pat1 : Str)
    (buff : List Char) :
    removeConfLine calls type pat1 pat2 file buff = (-1, file) ∧ ¬ calls.Succeed ∨
      removeConfLine calls type pat1 pat2 file buff =
        if (rawLines file).any (lineMatches (cmpfunc type) pat1 pat2) then
          (1, (rawLines file).flatMap (written (cmpfunc type) pat1 pat2))
        else (0, file) := by
  rw [removeConfLine, List.take_of_length_le hcalls.readable,
    fileChunks_eq_rawLines fun line hline => ⟨(hplain line hline).length, (hplain line hline).cr⟩]
  simp only [hcalls.renames, if_true]
  by_cases hopens : (calls.opensIn && calls.opensOut) = true
  · rw [if_pos hopens]
    rcases @foldlM_removeLine calls (cmpfunc type) pat1 pat2 ⟨[], 0, false, buff⟩ _ hcalls.write
      hplain with ⟨h, i, hfail⟩ | ⟨writes, buff', h⟩
    · rw [h]
      refine Or.inl ⟨rfl, fun hsucceed => ?_⟩
      have hroom := hsucceed.write i
      rw [hfail] at hroom
      cases hroom
    · rw [h]
      exact Or.inr rfl
  · rw [if_neg hopens]
    refine Or.inl ⟨rfl, fun hsucceed => hopens ?_⟩
    rw [hsucceed.opensIn, hsucceed.opensOut]
    rfl

theorem filter_keptLine_of_none {lines : List Str}
    (h : ∀ line ∈ lines, lineMatches cmp pat1 pat2 line = false) :
    lines.filter (keptLine cmp pat1 pat2) = lines :=
  List.filter_eq_self.mpr fun line hline => by rw [keptLine, h line hline, Bool.not_false, Bool.or_true]

theorem flatMap_written_eq {lines : List Str}
    (h : ∀ line ∈ lines, isComment line = true → lineMatches cmp pat1 pat2 line = true) :
    lines.flatMap (written cmp pat1 pat2) = (lines.filter (keptLine cmp pat1 pat2)).flatten := by
  induction lines with
  | nil => rfl
  | cons line lines ih =>
      have hline := h line List.mem_cons_self
      rw [List.flatMap_cons, ih fun l hl => h l (List.mem_cons_of_mem line hl), List.filter_cons,
        keptLine, written]
      cases hcomment : isComment line with
      | true =>
          rw [hline hcomment]
          simp
      | false => cases lineMatches cmp pat1 pat2 line <;> simp

theorem removesExactly_of_notDoubled {type : ConfType} {file : Str} (hcalls : calls.Whole file)
    (hplain : ∀ line ∈ rawLines file, PlainLine pat2 line)
    (h : NotDoubled (cmpfunc type) pat1 pat2 file) : RemovesExactly calls type pat1 pat2 file := by
  intro buff _
  simp only
  rcases removeConfLine_eq hcalls hplain type pat1 buff with
    ⟨hrun, -⟩ | hrun
  · rw [hrun]
    exact ⟨fun _ => rfl, fun h => absurd rfl h⟩
  · rw [hrun]
    by_cases hany : (rawLines file).any (lineMatches (cmpfunc type) pat1 pat2) = true
    · rw [if_pos hany]
      refine ⟨fun h : (1 : ℤ) = -1 => absurd h (by decide), fun _ => flatMap_written_eq ?_⟩
      rcases h with hnone | hcomment
      · rw [List.any_eq_true] at hany
        obtain ⟨line, hline, hmatch⟩ := hany
        rw [hnone line hline] at hmatch
        cases hmatch
      · exact hcomment
    · rw [if_neg hany]
      rw [Bool.not_eq_true, List.any_eq_false] at hany
      refine ⟨fun _ => rfl, fun _ => ?_⟩
      rw [filter_keptLine_of_none fun line hline => Bool.eq_false_iff.mpr (hany line hline),
        rawLines_flatten]

theorem length_kept_le (lines : List Str) :
    (lines.filter (keptLine cmp pat1 pat2)).flatten.length ≤
      (lines.flatMap (written cmp pat1 pat2)).length := by
  induction lines with
  | nil => exact le_rfl
  | cons line lines ih =>
      rw [List.filter_cons, List.flatMap_cons, List.length_append, keptLine, written]
      cases isComment line <;> cases lineMatches cmp pat1 pat2 line <;>
        simp only [Bool.false_eq_true, if_true, if_false, List.nil_append, List.append_nil,
          List.length_append, List.length_nil, List.flatten_cons, Bool.not_true, Bool.not_false,
          Bool.or_true, Bool.or_false] <;> omega

/-- A comment that is written twice makes the file longer. -/
theorem matches_of_length {lines : List Str} (hne : ∀ line ∈ lines, line ≠ [])
    (h : (lines.flatMap (written cmp pat1 pat2)).length =
      (lines.filter (keptLine cmp pat1 pat2)).flatten.length) :
    ∀ line ∈ lines, isComment line = true → lineMatches cmp pat1 pat2 line = true := by
  induction lines with
  | nil => exact fun line hline => (List.not_mem_nil hline).elim
  | cons line lines ih =>
      have hle := @length_kept_le cmp pat1 pat2 lines
      have hpos := List.length_pos_of_ne_nil (hne line List.mem_cons_self)
      rw [List.filter_cons, List.flatMap_cons, List.length_append, keptLine, written] at h
      have htail := ih fun l hl => hne l (List.mem_cons_of_mem line hl)
      rw [List.forall_mem_cons]
      cases hcomment : isComment line <;> cases hmatch : lineMatches cmp pat1 pat2 line <;>
        simp only [hcomment, hmatch, Bool.false_eq_true, if_true, if_false, List.nil_append,
          List.append_nil, List.length_append, List.length_nil, List.flatten_cons, Bool.not_true,
          Bool.not_false, Bool.or_true, Bool.or_false] at h
      · exact ⟨fun h => absurd h (by decide), htail (by omega)⟩
      · exact ⟨fun _ => rfl, htail (by omega)⟩
      · omega
      · exact ⟨fun _ => rfl, htail (by omega)⟩

theorem notDoubled_of_removesExactly {type : ConfType} {file : Str} (hcalls : calls.Whole file)
    (hsucceed : calls.Succeed) (hplain : ∀ line ∈ rawLines file, PlainLine pat2 line)
    (h : RemovesExactly calls type pat1 pat2 file) : NotDoubled (cmpfunc type) pat1 pat2 file := by
  have hresult := h (List.replicate IRCD_BUFSIZE NUL) List.length_replicate
  rcases removeConfLine_eq hcalls hplain type pat1 (List.replicate IRCD_BUFSIZE NUL) with
    ⟨-, hfail⟩ | hrun
  · exact absurd hsucceed hfail
  · simp only [hrun] at hresult
    by_cases hany : (rawLines file).any (lineMatches (cmpfunc type) pat1 pat2) = true
    · rw [if_pos hany] at hresult
      have hout := hresult.2 fun h : (1 : ℤ) = -1 => absurd h (by decide)
      exact Or.inr (matches_of_length (fun line hline => ne_nil_of_mem_rawLines hline)
        (congrArg List.length hout))
    · rw [Bool.not_eq_true, List.any_eq_false] at hany
      exact Or.inl fun line hline => Bool.eq_false_iff.mpr (hany line hline)

end Remove

section Examples

def allCalls : FileCalls := ⟨true, true, 64, fun _ => some IRCD_BUFSIZE, true⟩

def commented : Str := "# bans\n\"u\",\"h\",\"r\"\n".toList

def uncommented : Str := "\"u\",\"h\",\"r\"\n\"v\",\"h\",\"r\"\n".toList

end Examples

end Unirc
