import Unirc.ModeSend

/-!
# The lines of a MODE command

What the loops of `send_mode_changes` and `send_cap_mode_changes` make of a list of changes, line by
line: a line has a start and the changes that are put on it, until the test for a new line holds.
-/

namespace Unirc

namespace SentChange

/-- The sign in front of a letter, unless the line has it already. -/
def sign (dir : ModeDir) (ch : SentChange) : Str :=
  if dir = ch.dir then [] else [if ch.dir = .add then '+' else '-']

def argText (ch : SentChange) : Str := ch.arg.elim [] (· ++ [' '])

end SentChange

/-- The letters of a line with their signs, where `dir` is the direction before them. -/
def modeText : ModeDir → List SentChange → Str
  | _, [] => []
  | dir, ch :: changes => ch.sign dir ++ ch.letter :: modeText ch.dir changes

def lastDir (dir : ModeDir) (changes : List SentChange) : ModeDir :=
  changes.foldl (fun _ ch => ch.dir) dir

theorem modeText_concat (dir : ModeDir) (changes : List SentChange) (ch : SentChange) :
    modeText dir (changes ++ [ch]) =
      modeText dir changes ++ (ch.sign (lastDir dir changes) ++ [ch.letter]) := by
  induction changes generalizing dir with
  | nil => rfl
  | cons d changes ih =>
      change d.sign dir ++ d.letter :: modeText d.dir (changes ++ [ch]) = _
      rw [ih d.dir]
      simp [modeText, lastDir]

@[simp] theorem lastDir_concat (dir : ModeDir) (changes : List SentChange) (ch : SentChange) :
    lastDir dir (changes ++ [ch]) = ch.dir := by simp [lastDir]

/-- A line that is being made. -/
structure ChangeLine where
  start : Str
  changes : List SentChange

namespace ChangeLine

variable (l : ChangeLine)

def modebuf : Str := l.start ++ modeText .query l.changes

def parabuf : Str := l.changes.flatMap SentChange.argText

def params : List Str := l.changes.filterMap SentChange.arg

def add (ch : SentChange) : ChangeLine := ⟨l.start, l.changes ++ [ch]⟩

/-- The test for a new line. -/
def Full (ch : SentChange) : Prop :=
  l.params.length = MAXMODEPARAMS ∨
    IRCD_BUFSIZE < ch.arglen + l.modebuf.length + l.parabuf.length + 2 ∨
    MODEBUFLEN ≤ ch.arglen + l.parabuf.length + BAN_FUDGE

instance (ch : SentChange) : Decidable (l.Full ch) := by
  unfold Full
  infer_instance

/-- What is sent of a line that is full. -/
def sent : List Str := if l.changes = [] then [] else [l.modebuf ++ ' ' :: l.parabuf]

/-- What is sent of the last line, without the blank at its end. -/
def last : List Str := if l.changes = [] then [] else [l.modebuf ++ ' ' :: l.parabuf.dropLast]

/-- What is sent of the line and of those behind it, where `rest` are the changes to come. -/
def sentLines (later : Str) : ChangeLine → List SentChange → List Str
  | l, [] => l.last
  | l, ch :: rest =>
      if l.Full ch then l.sent ++ sentLines later ⟨later, [ch]⟩ rest
      else sentLines later (l.add ch) rest

variable {l}

theorem modebuf_add (ch : SentChange) :
    (l.add ch).modebuf = l.modebuf ++ (ch.sign (lastDir .query l.changes) ++ [ch.letter]) := by
  simp only [modebuf, add, modeText_concat, List.append_assoc]

theorem parabuf_add (ch : SentChange) : (l.add ch).parabuf = l.parabuf ++ ch.argText := by
  simp [parabuf, add]

theorem params_add (ch : SentChange) :
    (l.add ch).params = l.params ++ ch.arg.toList := by
  simp only [params, add, List.filterMap_append, List.filterMap_cons, List.filterMap_nil]
  cases ch.arg <;> rfl

theorem parabuf_eq (l : ChangeLine) : l.parabuf = l.params.flatMap (· ++ [' ']) := by
  obtain ⟨start, changes⟩ := l
  induction changes with
  | nil => rfl
  | cons ch changes ih =>
      simp only [parabuf, params, List.flatMap_cons, List.filterMap_cons] at ih ⊢
      rw [ih]
      cases h : ch.arg with
      | none => simp [SentChange.argText, h]
      | some arg => simp [SentChange.argText, h]

theorem add_changes_ne_nil (ch : SentChange) : (l.add ch).changes ≠ [] :=
  List.append_ne_nil_of_right_ne_nil _ (List.cons_ne_nil _ _)

end ChangeLine

namespace SendState

/-- The loop stands at the line `l`, and `lines` were sent before it. -/
structure At (st : SendState) (l : ChangeLine) (lines : List Str) : Prop where
  modebuf : st.modebuf = l.modebuf
  parabuf : st.parabuf = l.parabuf
  nc : st.nc = l.changes.length
  mc : st.mc = l.params.length
  dir : st.dir = lastDir .query l.changes
  lines : st.lines = lines

variable {st : SendState} {l : ChangeLine} {lines : List Str} {trim : Bool} {later : Str}

theorem at_start (st : SendState) (text : Str) : (st.start text).At ⟨text, []⟩ st.lines where
  modebuf := (List.append_nil text).symm
  parabuf := rfl
  nc := rfl
  mc := rfl
  dir := rfl
  lines := rfl

theorem At.full_iff (h : st.At l lines) (ch : SentChange) : st.Full ch.arglen ↔ l.Full ch := by
  rw [Full, ChangeLine.Full, h.mc, h.modebuf, h.parabuf]

theorem At.nc_eq_zero_iff (h : st.At l lines) : st.nc = 0 ↔ l.changes = [] := by
  rw [h.nc, List.length_eq_zero_iff]

theorem At.send_lines (h : st.At l lines) : st.send.lines = lines ++ l.sent := by
  by_cases hne : l.changes = []
  · rw [send, if_pos (h.nc_eq_zero_iff.mpr hne), ChangeLine.sent, if_pos hne, List.append_nil,
      h.lines]
  · rw [send, if_neg (mt h.nc_eq_zero_iff.mp hne), ChangeLine.sent, if_neg hne, h.modebuf,
      h.parabuf]
    exact congrArg (· ++ _) h.lines

/-- A line never ends with a sign. -/
theorem At.dropSign (h : st.At l lines) (hne : l.changes ≠ [])
    (hletters : ∀ ch ∈ l.changes, ch.letter ≠ '-') : st.dropSign = st := by
  obtain ⟨before, ch, hlast⟩ := List.eq_nil_or_concat' l.changes |>.resolve_left hne
  refine if_neg ?_
  rw [h.modebuf, ChangeLine.modebuf, hlast, modeText_concat, ← List.append_assoc,
    ← List.append_assoc, List.getLast?_concat]
  exact fun heq => hletters ch (hlast ▸ List.mem_append_right _ (List.mem_singleton_self _))
    (Option.some.inj heq)

theorem At.flush (h : st.At l lines) (hletters : trim = true → ∀ ch ∈ l.changes, ch.letter ≠ '-') :
    (st.flush trim later).At ⟨later, []⟩ (lines ++ l.sent) := by
  have hsent : (if trim then st.dropSign else st).send.lines = lines ++ l.sent := by
    by_cases hne : l.changes = []
    · have hnc : (if trim then st.dropSign else st).nc = 0 := by
        have hst : st.nc = 0 := by rw [h.nc, hne, List.length_nil]
        unfold SendState.dropSign
        split_ifs <;> exact hst
      rw [send, if_pos hnc, ChangeLine.sent, if_pos hne, List.append_nil, ← h.lines]
      unfold SendState.dropSign
      split_ifs <;> rfl
    · split
      · rename_i ht
        rw [h.dropSign hne (hletters ht), h.send_lines]
      · exact h.send_lines
  have hat := at_start (if trim then st.dropSign else st).send later
  rwa [hsent] at hat

theorem At.put (h : st.At l lines) (ch : SentChange) :
    (((st.putSign ch.dir).putLetter ch.letter).putArg ch.arg).At (l.add ch) lines := by
  have hsign : (st.putSign ch.dir).modebuf = st.modebuf ++ ch.sign st.dir ∧
      (st.putSign ch.dir).parabuf = st.parabuf ∧ (st.putSign ch.dir).nc = st.nc ∧
      (st.putSign ch.dir).mc = st.mc ∧ (st.putSign ch.dir).dir = ch.dir ∧
      (st.putSign ch.dir).lines = st.lines := by
    unfold putSign SentChange.sign
    split
    · rename_i hdir
      exact ⟨(List.append_nil _).symm, rfl, rfl, rfl, hdir, rfl⟩
    · exact ⟨rfl, rfl, rfl, rfl, rfl, rfl⟩
  obtain ⟨hmodebuf, hparabuf, hnc, hmc, hdir, hlines⟩ := hsign
  have hletter : ((st.putSign ch.dir).putLetter ch.letter).modebuf = (l.add ch).modebuf := by
    change (st.putSign ch.dir).modebuf ++ [ch.letter] = _
    rw [hmodebuf, ChangeLine.modebuf_add, h.dir, h.modebuf, List.append_assoc]
  have hcount : (st.putSign ch.dir).nc + 1 = (l.add ch).changes.length := by
    rw [hnc, h.nc, ChangeLine.add, List.length_append, List.length_singleton]
  have hlast : (st.putSign ch.dir).dir = lastDir .query (l.add ch).changes := by
    rw [hdir, ChangeLine.add, lastDir_concat]
  cases harg : ch.arg with
  | none =>
      refine ⟨hletter, ?_, hcount, ?_, hlast, hlines.trans h.lines⟩
      · change (st.putSign ch.dir).parabuf = _
        rw [hparabuf, h.parabuf, ChangeLine.parabuf_add, SentChange.argText, harg]
        exact (List.append_nil _).symm
      · change (st.putSign ch.dir).mc = _
        rw [hmc, h.mc, ChangeLine.params_add, harg]
        exact congrArg List.length (List.append_nil _).symm
  | some arg =>
      refine ⟨hletter, ?_, hcount, ?_, hlast, hlines.trans h.lines⟩
      · change (st.putSign ch.dir).parabuf ++ (arg ++ [' ']) = _
        rw [hparabuf, h.parabuf, ChangeLine.parabuf_add, SentChange.argText, harg]
        rfl
      · change (st.putSign ch.dir).mc + 1 = _
        rw [hmc, h.mc, ChangeLine.params_add, harg, List.length_append]
        rfl

theorem At.change (h : st.At l lines) (ch : SentChange)
    (hletters : trim = true → ∀ d ∈ l.changes, d.letter ≠ '-') :
    if l.Full ch then (st.change trim later ch).At ⟨later, [ch]⟩ (lines ++ l.sent)
    else (st.change trim later ch).At (l.add ch) lines := by
  unfold SendState.change
  split
  · rename_i hfull
    rw [if_pos ((h.full_iff ch).mpr hfull)]
    exact (h.flush hletters).put ch
  · rename_i hfull
    rw [if_neg (mt (h.full_iff ch).mp hfull)]
    exact h.put ch

theorem At.finish_lines (h : st.At l lines) : st.finish.lines = lines ++ l.last := by
  have hsend (text : Str) (writes : List ArrayWrite) :
      (send { st with parabuf := text, writes := writes }).lines =
        lines ++ if l.changes = [] then [] else [l.modebuf ++ ' ' :: text] := by
    by_cases hne : l.changes = []
    · rw [send, if_pos (h.nc_eq_zero_iff.mpr hne), if_pos hne, List.append_nil, ← h.lines]
    · rw [send, if_neg (mt h.nc_eq_zero_iff.mp hne), if_neg hne, ← h.lines, ← h.modebuf]
  unfold finish ChangeLine.last
  split
  · rw [hsend, h.parabuf]
  · rename_i hblank
    have hnil : l.parabuf = [] := by
      rw [h.parabuf, l.parabuf_eq] at hblank
      rw [l.parabuf_eq]
      rcases List.eq_nil_or_concat' l.params with hp | ⟨params, p, hp⟩
      · rw [hp]
        rfl
      · rw [hp, List.flatMap_append, List.flatMap_singleton, ← List.append_assoc,
          List.getLast?_concat] at hblank
        exact absurd rfl hblank
    rw [hsend st.parabuf st.writes, h.parabuf, hnil]
    rfl

theorem At.foldl_finish_lines (h : st.At l lines) {changes : List SentChange}
    (hline : trim = true → ∀ ch ∈ l.changes, ch.letter ≠ '-')
    (hletters : trim = true → ∀ ch ∈ changes, ch.letter ≠ '-') :
    (changes.foldl (SendState.change trim later) st).finish.lines =
      lines ++ l.sentLines later changes := by
  induction changes generalizing st l lines with
  | nil => exact h.finish_lines
  | cons ch changes ih =>
      have hstep := @At.change st l lines trim later h ch hline
      have hch : trim = true → ch.letter ≠ '-' := fun ht => hletters ht ch List.mem_cons_self
      have hrest : trim = true → ∀ d ∈ changes, d.letter ≠ '-' :=
        fun ht d hd => hletters ht d (List.mem_cons_of_mem _ hd)
      rw [List.foldl_cons, ChangeLine.sentLines]
      split
      · rename_i hfull
        rw [if_pos hfull] at hstep
        rw [ih hstep (fun ht d hd => List.mem_singleton.mp hd ▸ hch ht) hrest, List.append_assoc]
      · rename_i hfull
        rw [if_neg hfull] at hstep
        refine ih hstep (fun ht d hd => ?_) hrest
        rcases List.mem_append.mp hd with hd | hd
        · exact hline ht d hd
        · exact List.mem_singleton.mp hd ▸ hch ht

theorem run_lines (trim : Bool) (first later : Str) {changes : List SentChange}
    (hletters : trim = true → ∀ ch ∈ changes, ch.letter ≠ '-') :
    (run trim first later changes).lines = ChangeLine.sentLines later ⟨first, []⟩ changes :=
  (at_start empty first).foldl_finish_lines (fun _ _ hch => absurd hch List.not_mem_nil) hletters

end SendState

end Unirc
