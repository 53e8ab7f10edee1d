import Unirc.CsvFields
import Unirc.Hostmask
import Unirc.Match

/-!
# Ban files

`parse_csv_file`: the pointers to the fields are declared outside of the loop and keep their
values from line to line, and they point into a line buffer that is written over.
-/

namespace Unirc

inductive ConfType
  | kline | rkline | dline | xline | rxline | cresv | nresv
  deriving DecidableEq

/-- What is created for a line: an `AccessItem`, a `MatchItem` or a `ResvChannel`, whose own name
is cut. -/
inductive CsvItem
  | access (user host reason : Option Str)
  | named (name reason : Option Str)
  | channel (name chname reason : Str)
  deriving DecidableEq

namespace ConfType

/-- The destinations of `parse_csv_line`. -/
def arity : ConfType → ℕ
  | kline | rkline | xline | rxline => 3
  | dline | cresv | nresv => 2

end ConfType

abbrev noReason : Str := "No reason".toList

section Items

variable (compile : Str → Bool)

/-- The item for the texts of the destinations, before a reservation is looked up. `compile` tells
whether a regular expression is well formed. -/
def csvItem : ConfType → List (Option Str) → Option CsvItem
  | .kline, [user, some host, reason] => some (.access user (some host) reason)
  | .rkline, [some user, some host, reason] =>
      if compile user && compile host then
        some (.access (some user) (some host) (some (reason.getD noReason)))
      else none
  | .dline, [some host, reason] =>
      match parseNetmask host with
      | .host => none
      | _ => some (.access none (some host) reason)
  | .xline, [name, reason, _] => some (.named name reason)
  | .rxline, [some name, reason, _] =>
      if compile name then some (.named (some name) (some (reason.getD noReason))) else none
  | .cresv, [some name, some reason] =>
      some (.channel name (name.take CHANNELLEN) (reason.take REASONLEN))
  | .nresv, [some name, some reason] => some (.named (some name) (some (reason.take REASONLEN)))
  | _, _ => none

end Items

/-- `hash_find_resv` and `find_matching_name_conf`: whether a reservation is for the name of
another one. -/
def CsvItem.covers : ConfType → CsvItem → CsvItem → Bool
  | .cresv, .channel _ chname _, .channel name _ _ => !irccmp name chname
  | .nresv, .named (some mask) _, .named (some name) _ => mask ≠ [] && matchEsc mask name
  | _, _, _ => false

structure CsvState where
  line : List Char
  fields : List (Option ℕ)
  items : List CsvItem

/-- The text of a line in the buffer. -/
def lineText (line : List Char) : Str := (cstring line).takeWhile (· ≠ '\n')

/-- The end of the line is written over. -/
def stripNewline (line : List Char) : List Char :=
  let text := lineText line
  if text.length < (cstring line).length then line.set text.length NUL else line

def isBanLine (text : Str) : Bool := text ≠ [] && text.head? ≠ some '#'

/-- A long reason of a reservation is cut in the buffer. -/
def cutReason (type : ConfType) (fields : List (Option ℕ)) (line : List Char) : List Char :=
  match type, fields with
  | .cresv, [_, some reason] | .nresv, [_, some reason] =>
      if REASONLEN < (cstring (line.drop reason)).length then line.set (reason + REASONLEN) NUL
      else line
  | _, _ => line

section Load

variable (compile : Str → Bool) (type : ConfType)

def loadLine (s : CsvState) (chunk : Str) : CsvState :=
  let line := stripNewline (overlay chunk s.line)
  if isBanLine (cstring line) then
    let (positions, line) := parseCsvLine type.arity line 0
    let fields := positions.map some ++ s.fields.drop positions.length
    let texts := fields.map fun field => field.map fun p => cstring (line.drop p)
    match csvItem compile type texts with
    | none => { s with line, fields }
    | some item =>
        if s.items.any fun resv => resv.covers type item then { s with line, fields }
        else ⟨cutReason type fields line, fields, s.items ++ [item]⟩
  else { s with line }

/-- `parse_csv_file` with the items that are there already. -/
def parseCsvFile (items : List CsvItem) (file : Str) (line : List Char) : List CsvItem :=
  ((fileChunks file).foldl (loadLine compile type)
    ⟨line, List.replicate type.arity none, items⟩).items

/-- The item of a line by itself. -/
def lineItem (text : Str) : Option CsvItem :=
  let fields := csvFields type.arity text
  csvItem compile type (fields.map some ++ List.replicate (type.arity - fields.length) none)

/-- The lines of a file that are not empty and no comments. -/
def banLines (file : Str) : List Str := ((fileChunks file).map lineText).filter isBanLine

/-- No line ends with a backslash inside a field, no line has fewer fields than one before it, and
no reservation is for the name of another one. -/
structure Independent (items : List CsvItem) (lines : List Str) : Prop where
  within : ∀ text ∈ lines, csvRunsOver type.arity text = false
  counts : lines.Pairwise fun text text' =>
    (csvFields type.arity text).length ≤ (csvFields type.arity text').length
  fresh : ∀ resv ∈ items, ∀ item ∈ lines.filterMap (lineItem compile type),
    resv.covers type item = false
  apart : (lines.filterMap (lineItem compile type)).Pairwise fun resv item =>
    resv.covers type item = false

end Load

theorem exists_cstring {memory : List Char} (h : NUL ∈ memory) :
    ∃ rest, memory = cstring memory ++ NUL :: rest := by
  obtain ⟨t, rest, rfl, ht⟩ := List.eq_append_cons_of_mem h
  exact ⟨rest, by rw [cstring_append ht]⟩

theorem NUL_not_mem_cstring (memory : List Char) : NUL ∉ cstring memory := fun h => by
  simpa using List.mem_takeWhile_imp h

theorem NUL_not_mem_lineText (memory : List Char) : NUL ∉ lineText memory := fun h =>
  NUL_not_mem_cstring memory ((List.takeWhile_sublist _).mem h)

theorem lineText_overlay (chunk memory : List Char) :
    lineText (overlay chunk memory) = lineText chunk := by
  rw [lineText, overlay, cstring_append_nul, lineText]

theorem stripNewline_eq {memory : List Char} (h : NUL ∈ memory) :
    ∃ stale, stripNewline memory = lineText memory ++ NUL :: stale := by
  obtain ⟨rest, hrest⟩ := exists_cstring h
  obtain ⟨u, hsplit⟩ : ∃ u, cstring memory = lineText memory ++ u :=
    ⟨_, List.takeWhile_append_dropWhile.symm⟩
  rw [stripNewline]
  generalize lineText memory = t at *
  generalize cstring memory = text at *
  cases u with
  | nil =>
      rw [List.append_nil] at hsplit
      rw [hsplit, if_neg (Nat.lt_irrefl _), ← hsplit]
      exact ⟨rest, hrest⟩
  | cons c u =>
      have hlen : t.length < text.length := by
        rw [hsplit, List.length_append, List.length_cons]
        omega
      refine ⟨u ++ NUL :: rest, ?_⟩
      rw [if_pos hlen, hrest, hsplit, List.append_assoc, List.set_append_right _ _ le_rfl,
        Nat.sub_self]
      rfl

section Load

variable {compile : Str → Bool} {type : ConfType} {s : CsvState} {chunk : Str} {m : ℕ}

/-- No field from number `m` on has been found so far. -/
def CsvState.Unset (s : CsvState) (type : ConfType) (m : ℕ) : Prop :=
  s.fields.drop m = List.replicate (type.arity - m) none

theorem CsvState.Unset.mono {k : ℕ} (h : s.Unset type m) (hk : m ≤ k) : s.Unset type k := by
  obtain ⟨d, rfl⟩ := Nat.exists_eq_add_of_le hk
  rw [CsvState.Unset, ← List.drop_drop, h, List.drop_replicate, Nat.sub_sub]

theorem loadLine_skip (h : isBanLine (lineText chunk) = false) :
    (loadLine compile type s chunk).items = s.items ∧
      (loadLine compile type s chunk).fields = s.fields := by
  obtain ⟨stale, hstale⟩ := @stripNewline_eq (overlay chunk s.line) (by simp [overlay])
  rw [lineText_overlay] at hstale
  have hskip : ¬ isBanLine (cstring (stripNewline (overlay chunk s.line))) = true := by
    rw [hstale, cstring_append (NUL_not_mem_lineText chunk), h]
    exact Bool.false_ne_true
  rw [loadLine]
  simp only
  rw [if_neg hskip]
  exact ⟨rfl, rfl⟩

/-- A line with as many fields as the lines before it. -/
theorem loadLine_read (h : isBanLine (lineText chunk) = true)
    (hover : csvRunsOver type.arity (lineText chunk) = false) (hunset : s.Unset type m)
    (hm : m ≤ (csvFields type.arity (lineText chunk)).length)
    (hfresh : ∀ item ∈ lineItem compile type (lineText chunk),
      ∀ resv ∈ s.items, resv.covers type item = false) :
    (loadLine compile type s chunk).items =
        s.items ++ (lineItem compile type (lineText chunk)).toList ∧
      (loadLine compile type s chunk).Unset type
        (csvFields type.arity (lineText chunk)).length := by
  obtain ⟨stale, hstale⟩ := @stripNewline_eq (overlay chunk s.line) (by simp [overlay])
  rw [lineText_overlay] at hstale
  have hnul := NUL_not_mem_lineText chunk
  generalize lineText chunk = t at *
  obtain ⟨positions, line, hparse⟩ : ∃ positions line,
      parseCsvLine type.arity (t ++ NUL :: stale) 0 = (positions, line) := ⟨_, _, rfl⟩
  have htexts : textsAt positions line = csvFields type.arity t := by
    have hspec := (parseCsvLine_spec (n := type.arity) (Nat.zero_le (t ++ NUL :: stale).length)).1
    rwa [hparse, List.drop_zero, csvFields_append_nul hnul hover] at hspec
  have hcount : positions.length = (csvFields type.arity t).length := by
    rw [← htexts, textsAt, List.length_map]
  have hrest : s.fields.drop positions.length =
      List.replicate (type.arity - positions.length) none := hunset.mono (hcount ▸ hm)
  have hitem : csvItem compile type ((positions.map some ++ s.fields.drop positions.length).map
      fun field => field.map fun p => cstring (line.drop p)) = lineItem compile type t := by
    rw [lineItem, ← htexts, textsAt, hrest, List.map_append, List.map_replicate, List.length_map,
      List.map_map, List.map_map]
    rfl
  have hleft : (positions.map some ++ s.fields.drop positions.length).drop positions.length =
      List.replicate (type.arity - positions.length) none := by
    rw [List.drop_left' (List.length_map _), hrest]
  rw [loadLine, CsvState.Unset, ← hcount]
  simp only
  rw [hstale, cstring_append hnul, if_pos h, hparse]
  simp only
  rw [hitem]
  cases hline : lineItem compile type t with
  | none => exact ⟨(List.append_nil _).symm, hleft⟩
  | some item =>
      have hany : ¬ (s.items.any fun resv => resv.covers type item) = true := by
        rw [Bool.not_eq_true, List.any_eq_false]
        intro resv hresv
        rw [hfresh item hline resv hresv]
        exact Bool.false_ne_true
      simp only
      rw [if_neg hany]
      exact ⟨rfl, hleft⟩

theorem Independent.sublist {items : List CsvItem} {lines lines' : List Str}
    (h : Independent compile type items lines) (hsub : lines'.Sublist lines) :
    Independent compile type items lines' where
  within text ht := h.within text (hsub.mem ht)
  counts := h.counts.sublist hsub
  fresh resv hresv item hitem := h.fresh resv hresv item ((hsub.filterMap _).mem hitem)
  apart := h.apart.sublist (hsub.filterMap _)

theorem Independent.tail {items : List CsvItem} {text : Str} {lines : List Str}
    (h : Independent compile type items (text :: lines)) :
    Independent compile type (items ++ (lineItem compile type text).toList) lines := by
  have htail := h.sublist (List.sublist_cons_self text lines)
  refine ⟨htail.within, htail.counts, fun resv hresv item hitem => ?_, htail.apart⟩
  rcases List.mem_append.mp hresv with hresv | hresv
  · exact htail.fresh resv hresv item hitem
  · have hline : lineItem compile type text = some resv := by simpa using hresv
    have hapart := h.apart
    rw [List.filterMap_cons_some hline, List.pairwise_cons] at hapart
    exact hapart.1 item hitem

theorem foldl_loadLine {chunks : List Str} (hunset : s.Unset type m)
    (hm : ∀ text ∈ (chunks.map lineText).filter isBanLine,
      m ≤ (csvFields type.arity text).length)
    (h : Independent compile type s.items ((chunks.map lineText).filter isBanLine)) :
    (chunks.foldl (loadLine compile type) s).items =
      s.items ++ ((chunks.map lineText).filter isBanLine).filterMap (lineItem compile type) := by
  induction chunks generalizing s m with
  | nil => exact (List.append_nil _).symm
  | cons chunk chunks ih =>
      rw [List.map_cons] at hm h ⊢
      rw [List.foldl_cons]
      by_cases hline : isBanLine (lineText chunk) = true
      · rw [List.filter_cons_of_pos hline] at hm h ⊢
        have hfresh : ∀ item ∈ lineItem compile type (lineText chunk),
            ∀ resv ∈ s.items, resv.covers type item = false := fun item hitem resv hresv =>
          h.fresh resv hresv item (List.mem_filterMap.mpr ⟨_, List.mem_cons_self, hitem⟩)
        obtain ⟨hitems, hnext⟩ := loadLine_read hline (h.within _ List.mem_cons_self) hunset
          (hm _ List.mem_cons_self) hfresh
        have htail := h.tail
        rw [← hitems] at htail
        rw [ih hnext (List.pairwise_cons.mp h.counts).1 htail, hitems, List.append_assoc]
        cases hitem : lineItem compile type (lineText chunk) with
        | none => rw [List.filterMap_cons_none hitem]; rfl
        | some item => rw [List.filterMap_cons_some hitem]; rfl
      · have hskip := @loadLine_skip compile type s chunk (Bool.eq_false_iff.mpr hline)
        rw [List.filter_cons_of_neg hline] at hm h ⊢
        have hunset' : (loadLine compile type s chunk).Unset type m := by
          rw [CsvState.Unset, hskip.2]
          exact hunset
        rw [ih hunset' hm (hskip.1 ▸ h), hskip.1]

end Load

section Examples

def longerLine : Str := "# K-lines\n\"a\",\"g\"\n\"u\",\"h\",\"r\"\n".toList

def shortLine : Str := "\"u\",\"h\",\"r\"\n\"a\"\n".toList

end Examples

end Unirc
