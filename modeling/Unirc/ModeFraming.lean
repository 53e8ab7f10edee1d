import Unirc.ModeStamps

/-!
# Reading the lines of a MODE command

The changes that a reader finds in the lines of `send_mode_changes` and `send_cap_mode_changes`, and
when they are those that were recorded.
-/

namespace Unirc

section Words

/-- The text of a parameter alone is not read as the parameter, unless it is a word. -/
theorem isWord_of_splitArgs {n : ℕ} {a rest : Str} {as : List Str}
    (h : splitArgs (n + 1) (a ++ rest) = a :: as) (hrest : as ≠ [] ∨ rest = [] ∨ rest = [' ']) :
    IsWord a := by
  refine (splitArgs_cases h).resolve_right ?_
  rintro ⟨hnil, s, hs⟩
  rcases hrest with hne | rfl | rfl
  · exact hne hnil
  · have hlen := congrArg List.length hs
    simp only [List.length_append, List.length_cons, List.length_nil] at hlen
    omega
  · have hlen := congrArg List.length hs
    have hcount := congrArg (List.count ' ') hs
    simp only [List.length_append, List.length_cons, List.length_nil] at hlen
    have hnil : s = [] := List.eq_nil_of_length_eq_zero (by omega)
    subst hnil
    simp at hcount

/-- What is sent of the parameters `args`: the blank at the end may be gone. -/
def ParamText (args : List Str) (text : Str) : Prop :=
  text = args.flatMap (· ++ [' ']) ∨ text = (args.flatMap (· ++ [' '])).dropLast

theorem ParamText.cons {a b : Str} {args : List Str} {text : Str}
    (h : ParamText (a :: b :: args) text) : ∃ t, text = a ++ ' ' :: t ∧ ParamText (b :: args) t := by
  have hne : (b :: args).flatMap (· ++ [' ']) ≠ [] := by simp
  rcases h with rfl | rfl
  · exact ⟨_, by rw [List.flatMap_cons, List.append_assoc]; rfl, Or.inl rfl⟩
  · refine ⟨_, ?_, Or.inr rfl⟩
    rw [List.flatMap_cons, List.dropLast_append_of_ne_nil hne, List.append_assoc]
    rfl

theorem ParamText.singleton {a text : Str} (h : ParamText [a] text) :
    text = a ++ [] ∨ text = a ++ [' '] := by
  rcases h with rfl | rfl
  · exact Or.inr (List.flatMap_singleton ..)
  · rw [List.flatMap_singleton, List.dropLast_concat]
    exact Or.inl (List.append_nil a).symm

theorem ParamText.splitArgs_of_words {args : List Str} {text : Str} (h : ParamText args text)
    (hwords : ∀ a ∈ args, IsWord a) {n : ℕ} (hn : args.length ≤ n) : splitArgs n text = args := by
  induction args generalizing n text with
  | nil =>
      have hnil : text = [] := h.elim id id
      rw [hnil, splitArgs_nil]
  | cons a args ih =>
      obtain ⟨n, rfl⟩ := Nat.exists_eq_add_of_lt (Nat.lt_of_lt_of_le (Nat.succ_pos _) hn)
      rw [Nat.zero_add] at hn ⊢
      have ha := hwords a List.mem_cons_self
      cases args with
      | nil =>
          rcases h.singleton with rfl | rfl
          · rw [List.append_nil, splitArgs_last ha]
          · rw [splitArgs_word ha, splitArgs_nil]
      | cons b args =>
          obtain ⟨t, rfl, ht⟩ := h.cons
          rw [splitArgs_word ha, ih ht (fun c hc => hwords c (List.mem_cons_of_mem _ hc))
            (Nat.le_of_succ_le_succ hn)]

theorem ParamText.isWord_of_isPrefix {args : List Str} {text : Str} (h : ParamText args text) {n : ℕ}
    (hn : args.length ≤ n) (hread : args <+: splitArgs n text) : ∀ a ∈ args, IsWord a := by
  induction args generalizing n text with
  | nil => exact fun a ha => absurd ha List.not_mem_nil
  | cons a args ih =>
      obtain ⟨n, rfl⟩ := Nat.exists_eq_add_of_lt (Nat.lt_of_lt_of_le (Nat.succ_pos _) hn)
      rw [Nat.zero_add] at hn hread
      obtain ⟨more, hmore⟩ := hread
      cases args with
      | nil =>
          refine fun b hb => List.mem_singleton.mp hb ▸ ?_
          rcases h.singleton with rfl | rfl
          · exact isWord_of_splitArgs hmore.symm (Or.inr (Or.inl rfl))
          · exact isWord_of_splitArgs hmore.symm (Or.inr (Or.inr rfl))
      | cons b args =>
          obtain ⟨t, rfl, ht⟩ := h.cons
          have ha : IsWord a := isWord_of_splitArgs hmore.symm (Or.inl (List.cons_ne_nil _ _))
          rw [splitArgs_word ha] at hmore
          intro c hc
          rcases List.mem_cons.mp hc with rfl | hc
          · exact ha
          · exact ih ht (Nat.le_of_succ_le_succ hn) ⟨more, (List.cons.inj hmore).2⟩ c hc

end Words

section Reader

/-- The letters that come with a parameter. -/
def modeTakesParam (letter : Char) (dir : ModeDir) : Bool :=
  letter ∈ ['F', 'I', 'a', 'b', 'e', 'h', 'k', 'o', 'q', 'v'] ||
    (dir = .add && letter ∈ ['f', 'l'])

/-- The changes that a reader finds in the letters and the parameters. -/
def readModes : ModeDir → Str → List Str → List SentChange
  | _, [], _ => []
  | dir, c :: modes, params =>
      if c = '+' then readModes .add modes params
      else if c = '-' then readModes .del modes params
      else if c = '=' then readModes .query modes params
      else if modeTakesParam c dir then ⟨c, dir, params.head?⟩ :: readModes dir modes params.tail
      else ⟨c, dir, none⟩ :: readModes dir modes params

/-- The letters and the parameters of a MODE or TMODE. -/
def modeWords (line : Str) : List Str :=
  (splitLine line).2.drop (if (splitLine line).1 = "TMODE".toList then 2 else 1)

def readModeLine (line : Str) : List SentChange :=
  match modeWords line with
  | [] => []
  | modes :: params => readModes .add modes params

/-- A change as the handlers record it. -/
structure SentChange.Recorded (ch : SentChange) : Prop where
  letter : ch.letter.isAlpha = true
  dir : ch.dir ≠ .query
  param : ch.arg.isSome = modeTakesParam ch.letter ch.dir

/-- The changes with the parameters that are found for them. -/
def refill : List SentChange → List Str → List SentChange
  | [], _ => []
  | ch :: changes, params =>
      if ch.arg.isSome then { ch with arg := params.head? } :: refill changes params.tail
      else ch :: refill changes params

@[simp] theorem length_refill (changes : List SentChange) (params : List Str) :
    (refill changes params).length = changes.length := by
  induction changes generalizing params with
  | nil => rfl
  | cons ch changes ih =>
      rw [refill]
      split <;> rw [List.length_cons, List.length_cons, ih]

theorem refill_eq_iff {changes : List SentChange} {params : List Str} :
    refill changes params = changes ↔ changes.filterMap SentChange.arg <+: params := by
  induction changes generalizing params with
  | nil => simp [refill]
  | cons ch changes ih =>
      rw [refill]
      cases harg : ch.arg with
      | none =>
          rw [if_neg (by simp), List.filterMap_cons_none harg, ← ih]
          exact ⟨fun h => (List.cons.inj h).2, congrArg (ch :: ·)⟩
      | some arg =>
          rw [if_pos Option.isSome_some, List.filterMap_cons_some harg]
          cases params with
          | nil =>
              refine iff_of_false (fun h => ?_) (fun h => ?_)
              · have heq := congrArg SentChange.arg (List.cons.inj h).1
                rw [harg] at heq
                cases heq
              · exact absurd (List.prefix_nil.mp h) (List.cons_ne_nil _ _)
          | cons p params =>
              rw [List.cons_prefix_cons, ← ih]
              refine ⟨fun h => ⟨?_, (List.cons.inj h).2⟩, fun h => ?_⟩
              · have heq := congrArg SentChange.arg (List.cons.inj h).1
                rw [harg] at heq
                exact (Option.some.inj heq).symm
              · have heq : ({ ch with arg := (p :: params).head? } : SentChange) = ch := by
                  rw [List.head?_cons, ← h.1, ← harg]
                rw [heq]
                exact congrArg (ch :: ·) h.2

theorem readModes_letter {ch : SentChange} (h : ch.Recorded) (modes : Str) (params : List Str) :
    readModes ch.dir (ch.letter :: modes) params =
      if ch.arg.isSome then { ch with arg := params.head? } :: readModes ch.dir modes params.tail
      else ch :: readModes ch.dir modes params := by
  have hne (c : Char) (hc : c.isAlpha = false) : ch.letter ≠ c := fun heq => by
    have := h.letter
    rw [heq, hc] at this
    cases this
  rw [readModes, if_neg (hne '+' (by decide)), if_neg (hne '-' (by decide)),
    if_neg (hne '=' (by decide)), h.param]
  split
  · rfl
  · rename_i hparam
    have harg : ch.arg = none := by
      rw [← h.param] at hparam
      simpa using hparam
    rw [← harg]

theorem readModes_modeText {changes : List SentChange} (h : ∀ ch ∈ changes, ch.Recorded)
    {dir dir' : ModeDir} (hdir : dir = .query ∨ dir = dir') (params : List Str) :
    readModes dir' (modeText dir changes) params = refill changes params := by
  induction changes generalizing dir dir' params with
  | nil => rfl
  | cons ch changes ih =>
      have hch := h ch List.mem_cons_self
      have hrest (params : List Str) : readModes ch.dir (modeText ch.dir changes) params =
          refill changes params :=
        ih (fun d hd => h d (List.mem_cons_of_mem _ hd)) (Or.inr rfl) params
      have hletter : readModes dir' (ch.sign dir ++ ch.letter :: modeText ch.dir changes) params =
          readModes ch.dir (ch.letter :: modeText ch.dir changes) params := by
        unfold SentChange.sign
        split
        · rename_i heq
          have hne : dir ≠ .query := heq ▸ hch.dir
          rw [← heq, hdir.resolve_left hne]
          rfl
        · cases hd : ch.dir with
          | query => exact absurd hd hch.dir
          | add => rfl
          | del => rfl
      rw [modeText, hletter, readModes_letter hch, refill, hrest, hrest]

theorem isWord_modeText {changes : List SentChange} (h : ∀ ch ∈ changes, ch.Recorded)
    (hne : changes ≠ []) : IsWord (modeText .query changes) := by
  have hblank (dir : ModeDir) (cs : List SentChange) (hcs : ∀ ch ∈ cs, ch.Recorded) :
      ' ' ∉ modeText dir cs := by
    induction cs generalizing dir with
    | nil => exact List.not_mem_nil
    | cons ch cs ih =>
        have hletter := (hcs ch List.mem_cons_self).letter
        rw [modeText, List.mem_append, List.mem_cons, not_or, not_or]
        refine ⟨?_, fun heq => ?_, ih _ fun d hd => hcs d (List.mem_cons_of_mem _ hd)⟩
        · unfold SentChange.sign
          split_ifs <;> decide
        · rw [← heq] at hletter
          exact absurd hletter (by decide)
  obtain ⟨ch, cs, rfl⟩ := List.exists_cons_of_ne_nil hne
  have hsign : ch.sign .query = ['+'] ∨ ch.sign .query = ['-'] := by
    unfold SentChange.sign
    rw [if_neg (h ch List.mem_cons_self).dir.symm]
    split_ifs
    · exact Or.inl rfl
    · exact Or.inr rfl
  refine ⟨?_, hblank _ _ h, ?_⟩ <;> rw [modeText] <;> rcases hsign with hs | hs <;> rw [hs] <;> simp

end Reader

/-- The start of a line is read without the letters and the parameters. -/
def ModeStart (start : Str) : Prop :=
  ∃ n, MAXMODEPARAMS ≤ n ∧ ∀ rest, modeWords (start ++ rest) = splitArgs (n + 1) rest

theorem modeStart_modeStart {origin : Str} (horigin : ' ' ∉ origin) {ch : Channel}
    (hch : IsWord ch.chname.val) : ModeStart (modeStart origin ch) := by
  refine ⟨11, by decide, fun rest => ?_⟩
  rw [modeWords, splitLine_modeStart horigin, stringToArray, splitArgs_word hch]
  rfl

theorem modeStart_tmodeStart {source : Client} (hid : ' ' ∉ source.id.val) {ch : Channel}
    (hch : IsWord ch.chname.val) : ModeStart (tmodeStart source ch) := by
  refine ⟨10, by decide, fun rest => ?_⟩
  rw [modeWords, splitLine_tmodeStart hid, stringToArray, splitArgs_word (isWord_formatULong _),
    splitArgs_word hch]
  rfl

namespace ChangeLine

variable {l : ChangeLine} {later text : Str}

/-- The line is made as the loops make it. -/
structure Made (l : ChangeLine) : Prop where
  start : ModeStart l.start
  recorded : ∀ ch ∈ l.changes, ch.Recorded
  params : l.params.length ≤ MAXMODEPARAMS

theorem Made.add (h : l.Made) {ch : SentChange} (hch : ch.Recorded) (hfull : ¬ l.Full ch) :
    (l.add ch).Made where
  start := h.start
  recorded := fun d hd => by
    rcases List.mem_append.mp hd with hd | hd
    · exact h.recorded d hd
    · exact List.mem_singleton.mp hd ▸ hch
  params := by
    have hroom : l.params.length < MAXMODEPARAMS :=
      lt_of_le_of_ne h.params fun heq => hfull (Or.inl heq)
    have hone : ch.arg.toList.length ≤ 1 := by cases ch.arg <;> simp
    rw [params_add, List.length_append]
    omega

theorem Made.single {start : Str} (hstart : ModeStart start) {ch : SentChange}
    (hch : ch.Recorded) : Made ⟨start, [ch]⟩ where
  start := hstart
  recorded := fun d hd => List.mem_singleton.mp hd ▸ hch
  params := by
    have hone : ([ch].filterMap SentChange.arg).length ≤ 1 := List.length_filterMap_le ..
    exact hone.trans (by decide)

theorem Made.exists_splitArgs (h : l.Made) (hne : l.changes ≠ []) (text : Str) :
    ∃ n, MAXMODEPARAMS ≤ n ∧ modeWords (l.modebuf ++ ' ' :: text) =
      modeText .query l.changes :: splitArgs n text := by
  obtain ⟨n, hn, hread⟩ := h.start
  refine ⟨n, hn, ?_⟩
  rw [modebuf, List.append_assoc, hread, splitArgs_word (isWord_modeText h.recorded hne)]

theorem Made.exists_readModeLine (h : l.Made) (hne : l.changes ≠ []) (text : Str) :
    ∃ n, MAXMODEPARAMS ≤ n ∧
      readModeLine (l.modebuf ++ ' ' :: text) = refill l.changes (splitArgs n text) := by
  obtain ⟨n, hn, hwords⟩ := h.exists_splitArgs hne text
  refine ⟨n, hn, ?_⟩
  rw [readModeLine, hwords]
  exact readModes_modeText h.recorded (Or.inl rfl) _

theorem Made.length_readModeLine (h : l.Made) (hne : l.changes ≠ []) (text : Str) :
    (readModeLine (l.modebuf ++ ' ' :: text)).length = l.changes.length := by
  obtain ⟨n, -, hread⟩ := h.exists_readModeLine hne text
  rw [hread, length_refill]

/-- A line is read back exactly when its parameters are words. -/
theorem Made.readModeLine_eq_iff (h : l.Made) (hne : l.changes ≠ []) (htext : ParamText l.params text) :
    readModeLine (l.modebuf ++ ' ' :: text) = l.changes ↔ ∀ p ∈ l.params, IsWord p := by
  obtain ⟨n, hn, hread⟩ := h.exists_readModeLine hne text
  rw [hread, refill_eq_iff]
  constructor
  · exact htext.isWord_of_isPrefix (h.params.trans hn)
  · intro hwords
    rw [htext.splitArgs_of_words hwords (h.params.trans hn)]
    exact List.prefix_rfl

theorem Made.length_modeWords (h : l.Made) (hne : l.changes ≠ []) (htext : ParamText l.params text)
    (hwords : ∀ p ∈ l.params, IsWord p) :
    (modeWords (l.modebuf ++ ' ' :: text)).tail.length ≤ MAXMODEPARAMS := by
  obtain ⟨n, hn, hread⟩ := h.exists_splitArgs hne text
  rw [hread, List.tail_cons, htext.splitArgs_of_words hwords (h.params.trans hn)]
  exact h.params

/-- The lines of a list of changes, in any order of sending, with the blank at the end or not. -/
theorem paramText_parabuf (l : ChangeLine) : ParamText l.params l.parabuf :=
  Or.inl l.parabuf_eq

theorem paramText_dropLast (l : ChangeLine) : ParamText l.params l.parabuf.dropLast :=
  Or.inr (congrArg List.dropLast l.parabuf_eq)

/-- The changes that are read from the lines, for a line and for those behind it. -/
theorem flatMap_eq_iff (h : l.Made) {texts : List Str} (htext : ParamText l.params text)
    (htexts : texts = if l.changes = [] then [] else [l.modebuf ++ ' ' :: text]) :
    (texts.flatMap readModeLine).length = l.changes.length ∧
      (texts.flatMap readModeLine = l.changes ↔ ∀ p ∈ l.params, IsWord p) ∧
      ((∀ p ∈ l.params, IsWord p) →
        ∀ line ∈ texts, (modeWords line).tail.length ≤ MAXMODEPARAMS) := by
  by_cases hne : l.changes = []
  · rw [if_pos hne] at htexts
    subst htexts
    refine ⟨by rw [hne]; rfl, iff_of_true (by rw [hne]; rfl) (fun p hp => ?_),
      fun _ line hline => absurd hline List.not_mem_nil⟩
    rw [params, hne] at hp
    exact absurd hp List.not_mem_nil
  · rw [if_neg hne] at htexts
    subst htexts
    rw [List.flatMap_singleton]
    exact ⟨h.length_readModeLine hne text, h.readModeLine_eq_iff hne htext,
      fun hwords line hline => List.mem_singleton.mp hline ▸ h.length_modeWords hne htext hwords⟩

theorem forall_params_iff : (∀ p ∈ l.params, IsWord p) ↔
    ∀ ch ∈ l.changes, ∀ arg ∈ ch.arg, IsWord arg := by
  constructor
  · exact fun h ch hch arg harg => h arg (List.mem_filterMap.mpr ⟨ch, hch, harg⟩)
  · intro h p hp
    obtain ⟨ch, hch, harg⟩ := List.mem_filterMap.mp hp
    exact h ch hch p harg

/-- All lines are read back exactly when all parameters are words. -/
theorem flatMap_sentLines_eq_iff {rest : List SentChange} (h : l.Made) (hlater : ModeStart later)
    (hrest : ∀ ch ∈ rest, ch.Recorded) :
    (l.sentLines later rest).flatMap readModeLine = l.changes ++ rest ↔
      ∀ ch ∈ l.changes ++ rest, ∀ arg ∈ ch.arg, IsWord arg := by
  induction rest generalizing l with
  | nil =>
      rw [sentLines, List.append_nil, ← forall_params_iff]
      exact (flatMap_eq_iff h l.paramText_dropLast rfl).2.1
  | cons ch rest ih =>
      have hch := hrest ch List.mem_cons_self
      have hrest' : ∀ d ∈ rest, d.Recorded := fun d hd => hrest d (List.mem_cons_of_mem _ hd)
      rw [sentLines]
      split
      · obtain ⟨hlen, hiff, -⟩ := flatMap_eq_iff h l.paramText_parabuf (rfl : l.sent = _)
        have hbehind := ih (Made.single hlater hch) hrest'
        rw [List.singleton_append] at hbehind
        rw [List.flatMap_append, List.forall_mem_append, ← hbehind, ← forall_params_iff, ← hiff]
        constructor
        · exact fun heq => List.append_inj heq hlen
        · exact fun heq => congrArg₂ (· ++ ·) heq.1 heq.2
      · rename_i hfull
        have hnext := ih (h.add hch hfull) hrest'
        rwa [add, List.append_assoc, List.singleton_append] at hnext

theorem length_modeWords_of_mem {rest : List SentChange} (h : l.Made) (hlater : ModeStart later)
    (hrest : ∀ ch ∈ rest, ch.Recorded)
    (hwords : ∀ ch ∈ l.changes ++ rest, ∀ arg ∈ ch.arg, IsWord arg) :
    ∀ line ∈ l.sentLines later rest, (modeWords line).tail.length ≤ MAXMODEPARAMS := by
  induction rest generalizing l with
  | nil =>
      rw [List.append_nil, ← forall_params_iff] at hwords
      exact (flatMap_eq_iff h l.paramText_dropLast rfl).2.2 hwords
  | cons ch rest ih =>
      have hch := hrest ch List.mem_cons_self
      have hrest' : ∀ d ∈ rest, d.Recorded := fun d hd => hrest d (List.mem_cons_of_mem _ hd)
      rw [sentLines]
      split
      · obtain ⟨hline, hbehind⟩ := List.forall_mem_append.mp hwords
        rw [← forall_params_iff] at hline
        exact List.forall_mem_append.mpr
          ⟨(flatMap_eq_iff h l.paramText_parabuf (rfl : l.sent = _)).2.2 hline,
            ih (Made.single hlater hch) hrest' hbehind⟩
      · rename_i hfull
        refine ih (h.add hch hfull) hrest' ?_
        rwa [add, List.append_assoc, List.singleton_append]

/-- There is room on the line for the change, where `rest` are the changes behind it: the blank
behind the last parameter is not sent. -/
def HasRoom (l : ChangeLine) (ch : SentChange) (rest : List SentChange) : Prop :=
  l.modebuf.length + l.parabuf.length + (ch.sign (lastDir .query l.changes)).length +
      ch.argText.length + 2 ≤
    IRCD_BUFSIZE - 2 + if rest = [] ∧ (l.add ch).params ≠ [] then 1 else 0

/-- The line that a change is put on. -/
def next (later : Str) (l : ChangeLine) (ch : SentChange) : ChangeLine :=
  if l.Full ch then ⟨later, []⟩ else l

/-- There is room for each change on the line that the test for a new line leaves. -/
def Room (later : Str) : ChangeLine → List SentChange → Prop
  | _, [] => True
  | l, ch :: rest => (l.next later ch).HasRoom ch rest ∧ Room later ((l.next later ch).add ch) rest

/-- What is on the line is short enough to be sent. -/
def Short (l : ChangeLine) (rest : List SentChange) : Prop :=
  l.changes = [] ∨ l.modebuf.length + l.parabuf.length + 1 ≤
    IRCD_BUFSIZE - 2 + if rest = [] ∧ l.params ≠ [] then 1 else 0

theorem hasRoom_iff {ch : SentChange} {rest : List SentChange} :
    l.HasRoom ch rest ↔ (l.add ch).Short rest := by
  unfold HasRoom Short
  rw [or_iff_right (add_changes_ne_nil ch), modebuf_add, parabuf_add]
  simp only [List.length_append, List.length_singleton]
  constructor <;> intro h <;> refine le_trans (le_of_eq ?_) h <;> omega

theorem parabuf_eq_nil_iff : l.parabuf = [] ↔ l.params = [] := by
  rw [parabuf_eq]
  cases l.params <;> simp

theorem forall_sent_iff {ch : SentChange} {rest : List SentChange} :
    (∀ line ∈ l.sent, line.length ≤ IRCD_BUFSIZE - 2) ↔ l.Short (ch :: rest) := by
  unfold sent Short
  by_cases hne : l.changes = []
  · simp [hne]
  · rw [if_neg hne, or_iff_right hne, if_neg (fun h => List.cons_ne_nil _ _ h.1)]
    simp only [List.mem_singleton, forall_eq, List.length_append, List.length_cons]
    constructor <;> intro h <;> refine le_trans (le_of_eq ?_) h <;> omega

theorem forall_last_iff : (∀ line ∈ l.last, line.length ≤ IRCD_BUFSIZE - 2) ↔ l.Short [] := by
  unfold last Short
  by_cases hne : l.changes = []
  · simp [hne]
  · rw [if_neg hne, or_iff_right hne]
    simp only [List.mem_singleton, forall_eq, List.length_append, List.length_cons,
      List.length_dropLast, true_and]
    by_cases hp : l.params = []
    · rw [if_neg (not_not.mpr hp), parabuf_eq_nil_iff.mpr hp, List.length_nil]
      omega
    · have hpos : 0 < l.parabuf.length :=
        List.length_pos_iff.mpr (mt parabuf_eq_nil_iff.mp hp)
      rw [if_pos hp]
      omega

/-- All lines are short enough exactly when there is room for each change. -/
theorem forall_sentLines_iff {rest : List SentChange} :
    (∀ line ∈ l.sentLines later rest, line.length ≤ IRCD_BUFSIZE - 2) ↔
      l.Short rest ∧ l.Room later rest := by
  induction rest generalizing l with
  | nil => exact forall_last_iff.trans (and_iff_left trivial).symm
  | cons ch rest ih =>
      rw [sentLines, Room, next]
      split
      · rw [List.forall_mem_append, forall_sent_iff, ih, hasRoom_iff]
        rfl
      · rw [ih, hasRoom_iff]
        refine ⟨fun h => ⟨?_, h⟩, fun h => h.2⟩
        have hlen := h.1.resolve_left (add_changes_ne_nil ch)
        rw [modebuf_add, parabuf_add, List.length_append, List.length_append,
          List.length_append, List.length_singleton] at hlen
        refine Or.inr ?_
        rw [if_neg (fun h => List.cons_ne_nil _ _ h.1)]
        split at hlen <;> omega

end ChangeLine

section Framing

/-- What `send_format` leaves of a line. -/
def cutLine (line : Str) : Str := line.take (IRCD_BUFSIZE - 2)

/-- The lines are whole, with few parameters, and carry the changes. -/
structure Framed (lines : List Str) (changes : List SentChange) : Prop where
  length : ∀ line ∈ lines, line.length ≤ IRCD_BUFSIZE - 2
  whole : ∀ line ∈ lines, cutLine line = line
  params : ∀ line ∈ lines, (modeWords (cutLine line)).tail.length ≤ MAXMODEPARAMS
  read : (lines.map cutLine).flatMap readModeLine = changes

/-- The parameters are words, and there is room for each change. -/
structure FitsLines (first later : Str) (changes : List SentChange) : Prop where
  words : ∀ ch ∈ changes, ∀ arg ∈ ch.arg, IsWord arg
  room : ChangeLine.Room later ⟨first, []⟩ changes

theorem framed_sentLines_iff {first later : Str} {changes : List SentChange}
    (hfirst : ModeStart first) (hlater : ModeStart later) (hchanges : ∀ ch ∈ changes, ch.Recorded) :
    Framed (ChangeLine.sentLines later ⟨first, []⟩ changes) changes ↔
      FitsLines first later changes := by
  have hmade : ChangeLine.Made ⟨first, []⟩ :=
    ⟨hfirst, fun ch hch => absurd hch List.not_mem_nil, Nat.zero_le _⟩
  have hlength := @ChangeLine.forall_sentLines_iff ⟨first, []⟩ later changes
  have hempty : ChangeLine.Short ⟨first, []⟩ changes := Or.inl rfl
  rw [and_iff_right hempty] at hlength
  have hread := ChangeLine.flatMap_sentLines_eq_iff hmade hlater hchanges
  have hparams := ChangeLine.length_modeWords_of_mem hmade hlater hchanges
  rw [List.nil_append] at hread hparams
  have hmap (h : ∀ line ∈ ChangeLine.sentLines later ⟨first, []⟩ changes,
      line.length ≤ IRCD_BUFSIZE - 2) :
      (ChangeLine.sentLines later ⟨first, []⟩ changes).map cutLine =
        ChangeLine.sentLines later ⟨first, []⟩ changes :=
    (List.map_congr_left fun line hline => List.take_of_length_le (h line hline)).trans
      (List.map_id _)
  constructor
  · intro h
    have hr := h.read
    rw [hmap h.length] at hr
    exact ⟨hread.mp hr, hlength.mp h.length⟩
  · intro h
    have hl := hlength.mpr h.room
    refine ⟨hl, fun line hline => List.take_of_length_le (hl line hline), fun line hline => ?_, ?_⟩
    · rw [cutLine, List.take_of_length_le (hl line hline)]
      exact hparams h.words line hline
    · rw [hmap hl]
      exact hread.mpr h.words

/-- The starts of the lines for the members of the channel. -/
def localStarts (cfg : Config) (source : Client) (ch : Channel) : Str × Str :=
  if source.isClient then (modeStart (nuhOrigin source) ch, modeStart (nuhOrigin source) ch)
  else (modeStart (if source.hidden || cfg.hideServers then cfg.meName else source.name.val) ch,
    modeStart cfg.meName ch)

/-- The starts of the lines for a group of servers. -/
def serverStarts (cap : ChCapCombo) (source : Client) (ch : Channel) : Str × Str :=
  if cap.ts6 = true ∧ source.id.val ≠ [] then (tmodeStart source ch, modeStart source.id.val ch)
  else (modeStart source.name.val ch, modeStart source.name.val ch)

/-- The names that lines start with have no blanks. -/
structure PlainSource (cfg : Config) (source : Client) : Prop where
  meName : ' ' ∉ cfg.meName
  name : ' ' ∉ source.name.val
  id : ' ' ∉ source.id.val
  username : ' ' ∉ source.username
  host : ' ' ∉ source.host

/-- A change as the handlers record it. -/
structure ModeChange.Recorded (ch : ModeChange) : Prop where
  letter : ∀ c ∈ ch.letter, c.isAlpha = true
  dir : ch.dir ≠ .query
  param : ∀ c ∈ ch.letter, ch.arg.isSome = modeTakesParam c ch.dir
  id : ch.id.isSome = true → ch.arg.isSome = true

theorem ModeChange.Recorded.forMembers {m : Mode} {ch : ModeChange} (h : ch.Recorded)
    {sent : SentChange} (hsent : ch.forMembers m = some sent) : sent.Recorded := by
  unfold ModeChange.forMembers at hsent
  cases hletter : ch.letter with
  | none =>
      rw [hletter] at hsent
      cases hsent
  | some c =>
      rw [hletter] at hsent
      dsimp only at hsent
      split at hsent
      · cases hsent
      · obtain rfl := Option.some.inj hsent
        exact ⟨h.letter c hletter, h.dir, Option.isSome_map.trans (h.param c hletter)⟩

theorem ModeChange.Recorded.forServers {cap : ChCapCombo} {m : Mode} {ch : ModeChange}
    (h : ch.Recorded) {sent : SentChange} (hsent : ch.forServers cap m = some sent) :
    sent.Recorded := by
  unfold ModeChange.forServers at hsent
  cases hletter : ch.letter with
  | none =>
      rw [hletter] at hsent
      cases hsent
  | some c =>
      rw [hletter] at hsent
      dsimp only at hsent
      split at hsent
      · obtain rfl := Option.some.inj hsent
        refine ⟨h.letter c hletter, h.dir, ?_⟩
        rw [← h.param c hletter]
        have hid : ∀ id : Option Str, (id.isSome = true → ch.id.isSome = true) →
            (id.or (ch.arg.map (·.get m))).isSome = ch.arg.isSome := by
          intro id hid
          cases id with
          | none => exact Option.isSome_map
          | some i => exact (h.id (hid rfl)).symm
        refine hid _ fun hsome => ?_
        split at hsome
        · cases hch : ch.id with
          | none =>
              rw [hch] at hsome
              cases hsome
          | some i => rfl
        · cases hsome
      · cases hsent

variable {cfg : Config} {source : Client} {ch : Channel}

theorem PlainSource.localStarts (h : PlainSource cfg source) (hch : IsWord ch.chname.val) :
    ModeStart (localStarts cfg source ch).1 ∧ ModeStart (localStarts cfg source ch).2 := by
  have hnuh : ' ' ∉ nuhOrigin source := by
    unfold nuhOrigin
    simp [h.name, h.username, h.host]
  unfold Unirc.localStarts
  split
  · exact ⟨modeStart_modeStart hnuh hch, modeStart_modeStart hnuh hch⟩
  · refine ⟨modeStart_modeStart ?_ hch, modeStart_modeStart h.meName hch⟩
    split
    · exact h.meName
    · exact h.name

theorem PlainSource.serverStarts (h : PlainSource cfg source) (hch : IsWord ch.chname.val)
    (cap : ChCapCombo) : ModeStart (serverStarts cap source ch).1 ∧
      ModeStart (serverStarts cap source ch).2 := by
  unfold Unirc.serverStarts
  split
  · exact ⟨modeStart_tmodeStart h.id hch, modeStart_modeStart h.id hch⟩
  · exact ⟨modeStart_modeStart h.name hch, modeStart_modeStart h.name hch⟩

theorem lines_sendLocalChanges {m : Mode} {changes : List ModeChange}
    (h : ∀ change ∈ changes, change.Recorded) :
    (sendLocalChanges cfg source ch m changes).lines =
      ChangeLine.sentLines (localStarts cfg source ch).2 ⟨(localStarts cfg source ch).1, []⟩
        (changes.filterMap (·.forMembers m)) := by
  unfold sendLocalChanges localStarts
  rw [SendState.run_lines]
  · split <;> rfl
  · intro _ sent hsent
    obtain ⟨change, hchange, hsent⟩ := List.mem_filterMap.mp hsent
    have hletter := ((h change hchange).forMembers hsent).letter
    rintro heq
    rw [heq] at hletter
    exact absurd hletter (by decide)

/-- What `-F+b x *!*@*` records. -/
def unforwardBan : List ModeChange :=
  [⟨some 'F', .del, none, .allMembers, none, some (.text [])⟩,
    ⟨some 'b', .add, none, .allMembers, none, some (.text "*!*@*".toList)⟩]

theorem plainSource_alice : PlainSource Config.default alice := by
  constructor <;> decide

theorem recorded_unforwardBan : ∀ change ∈ unforwardBan, change.Recorded := by
  have hletter {P : Char → Prop} {l : Char} (h : P l) : ∀ c ∈ some l, P c := fun c hc =>
    Option.some.inj hc ▸ h
  intro change hchange
  rcases List.mem_cons.mp hchange with rfl | hchange
  · exact ⟨hletter rfl, by decide, hletter rfl, by decide⟩
  · rw [List.mem_singleton.mp hchange]
    exact ⟨hletter rfl, by decide, hletter rfl, by decide⟩

end Framing

end Unirc
