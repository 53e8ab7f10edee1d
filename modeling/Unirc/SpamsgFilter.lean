import Unirc.ChannelFlood

/-!
# The filter of spam messages

`verifica_spamsg` takes the codes out of a text, turns it to lower case and looks for the stored
messages in it. The messages are stored as they came, so one with a capital letter is never found.
-/

namespace Unirc

/-- `verifica_spamsg`: whether the text is flagged. -/
def verificaSpamsg (spamsgs : List Str) (text : Str) : Bool :=
  spamsgs.any fun msg => decide (msg <:+: stripCodes text)

/-- Bold, bell, reverse and underline. -/
def isFormat (c : Char) : Bool := c = '\x02' || c = '\x07' || c = '\x16' || c = '\x1f'

/-- The digits in front of a text, two at most. -/
def colorDigits (t : Str) : Str := (t.takeWhile Char.isDigit).take 2

/-- The text behind a colour code without its `^C`: up to two digits, and behind these a comma with
one or two more. -/
def afterColor (t : Str) : Str :=
  let rest := t.drop (colorDigits t).length
  match rest with
  | ',' :: back =>
      if colorDigits t = [] ∨ colorDigits back = [] then rest
      else back.drop (colorDigits back).length
  | _ => rest

theorem length_afterColor_le (t : Str) : (afterColor t).length ≤ t.length := by
  unfold afterColor
  dsimp only
  split
  · rename_i back hrest
    have hlen := congrArg List.length hrest
    rw [List.length_drop, List.length_cons] at hlen
    split_ifs
    · rw [List.length_drop]
      omega
    · rw [List.length_drop]
      omega
  · rw [List.length_drop]
    omega

/-- The text with its formatting removed. -/
def plainText : Str → Str
  | [] => []
  | c :: t =>
      if isFormat c then plainText t
      else if c = '\x03' then plainText (afterColor t)
      else c :: plainText t
termination_by t => t.length
decreasing_by
  all_goals
    have := length_afterColor_le t
    simp only [List.length_cons]
    omega

/-- `code` is formatting where it stands before `t`: a byte, or a colour code that `t` does not go
on with. -/
def IsCode (code t : Str) : Prop :=
  (∃ c, isFormat c = true ∧ code = [c]) ∨
    ∃ digits, code = '\x03' :: digits ∧ afterColor (digits ++ t) = t

/-- The text does not end in a colour code. -/
def Whole (s : Str) : Prop := ∀ t, plainText (s ++ t) = plainText s ++ plainText t

/-- What the filter is for: a text is flagged if and only if it contains one of the messages,
whatever its formatting and its case, and it fits the buffer. -/
structure FiltersSpam (spamsgs : List Str) : Prop where
  flags : ∀ text : Str, text.length ≤ 510 → (verificaSpamsg spamsgs text = true ↔
    ∃ msg ∈ spamsgs, msg.map toLower <:+: (plainText text).map toLower)
  caseBlind : ∀ text text' : Str, text.map toLower = text'.map toLower →
    verificaSpamsg spamsgs text = verificaSpamsg spamsgs text'
  codeBlind : ∀ s code t, Whole s → IsCode code t →
    verificaSpamsg spamsgs (s ++ (code ++ t)) = verificaSpamsg spamsgs (s ++ t)
  fits : ∀ text : Str, text.length ≤ 510 → (stripCodes text).length < 512

/-- A message that some text of a line contains. -/
def Sendable (msg : Str) : Prop :=
  msg.length ≤ 510 ∧ ∀ c ∈ msg, isFormat c = false ∧ c ≠ '\x03'

section Strip

theorem colorDigits_of_not {d : Char} {t : Str} (hd : d.isDigit = false) :
    colorDigits (d :: t) = [] := by
  rw [colorDigits, List.takeWhile_cons_of_neg (by simp [hd]), List.take_nil]

/-- One digit more, if there is one. -/
theorem drop_takeWhile_one (t : Str) : t.drop ((t.takeWhile Char.isDigit).take 1).length =
    if t.head?.any Char.isDigit then t.tail else t := by
  cases t with
  | nil => rfl
  | cons e t =>
      by_cases he : e.isDigit = true
      · simp [he]
      · simp [he]

theorem drop_colorDigits {d : Char} {t : Str} (hd : d.isDigit = true) :
    (d :: t).drop (colorDigits (d :: t)).length =
      if t.head?.any Char.isDigit then t.tail else t := by
  rw [colorDigits, List.takeWhile_cons_of_pos hd, List.take_succ_cons, List.length_cons,
    List.drop_succ_cons, drop_takeWhile_one]

theorem skipColor_eq (t : Str) : skipColor t = afterColor t := by
  unfold skipColor afterColor
  cases t with
  | nil => rfl
  | cons d t =>
      by_cases hd : d.isDigit = true
      · have hne : colorDigits (d :: t) ≠ [] := by simp [colorDigits, hd]
        simp only [if_pos hd, drop_colorDigits hd, hne, false_or]
        generalize (if t.head?.any Char.isDigit = true then t.tail else t) = rest
        cases rest with
        | nil => rfl
        | cons e back =>
            by_cases he : e = ','
            · subst he
              cases back with
              | nil => rfl
              | cons f back =>
                  by_cases hf : f.isDigit = true
                  · have hne : colorDigits (f :: back) ≠ [] := by simp [colorDigits, hf]
                    simp only [if_neg hne, drop_colorDigits hf, List.head?_cons, List.tail_cons,
                      Option.any_some, hf, if_true, List.drop_succ_cons, List.drop_zero]
                  · have hnil := @colorDigits_of_not f back (by simpa using hf)
                    have hcomma : (',' : Char).isDigit = false := by decide
                    simp only [if_pos hnil, List.head?_cons, List.tail_cons, Option.any_some, hf,
                      hcomma, if_true, Bool.false_eq_true, if_false]
            · rw [if_neg (by simpa using he)]
              split
              · rename_i hcons
                exact absurd (List.cons.inj hcons).1 he
              · rfl
      · have hnil := @colorDigits_of_not d t (by simpa using hd)
        simp only [if_neg hd, hnil, List.length_nil, List.drop_zero, true_or, if_true]
        split <;> rfl

/-- What `verifica_spamsg` searches is the plain text in lower case. -/
theorem stripCodes_eq (text : Str) : stripCodes text = (plainText text).map toLower := by
  fun_induction plainText text with
  | case1 => rw [stripCodes, List.map_nil]
  | case2 c t hc ih => rw [stripCodes, if_pos (by simpa [isFormat, or_assoc] using hc), ih]
  | case3 t hc ih =>
      rw [stripCodes, if_neg (by decide), if_pos rfl, skipColor_eq, ih]
  | case4 c t hc hcolor ih =>
      rw [stripCodes, if_neg (by simpa [isFormat, or_assoc] using hc), if_neg hcolor, ih,
        List.map_cons]

theorem length_plainText_le (text : Str) : (plainText text).length ≤ text.length := by
  fun_induction plainText text with
  | case1 => exact Nat.le_refl _
  | case2 c t hc ih => exact ih.trans (Nat.le_succ _)
  | case3 t hc ih => exact (ih.trans (length_afterColor_le t)).trans (Nat.le_succ _)
  | case4 c t hc hcolor ih => exact Nat.succ_le_succ ih

theorem plainText_of_plain {msg : Str} (h : ∀ c ∈ msg, isFormat c = false ∧ c ≠ '\x03') :
    plainText msg = msg := by
  induction msg with
  | nil => rw [plainText]
  | cons c msg ih =>
      obtain ⟨hformat, hcolor⟩ := h c List.mem_cons_self
      rw [plainText, if_neg (by simp [hformat]), if_neg hcolor,
        ih fun d hd => h d (List.mem_cons_of_mem c hd)]

theorem plain_of_mem_plainText {text : Str} {c : Char} (hc : c ∈ plainText text) :
    isFormat c = false ∧ c ≠ '\x03' := by
  fun_induction plainText text with
  | case1 => cases hc
  | case2 d t hd ih => exact ih hc
  | case3 t hd ih => exact ih hc
  | case4 d t hd hcolor ih =>
      rcases List.mem_cons.mp hc with rfl | hc
      · exact ⟨by simpa using hd, hcolor⟩
      · exact ih hc

end Strip

section Blind

theorem plainText_code {code t : Str} (h : IsCode code t) : plainText (code ++ t) = plainText t := by
  rcases h with ⟨c, hc, rfl⟩ | ⟨digits, rfl, hdigits⟩
  · rw [List.singleton_append, plainText, if_pos hc]
  · rw [List.cons_append, plainText, if_neg (by decide), if_pos rfl, hdigits]

theorem isFormat_toLower (c : Char) : isFormat (toLower c) = isFormat c := by
  simp only [isFormat, toLower_eq_iff_of_lt (show ('\x02' : Char).toNat < 0x41 by decide),
    toLower_eq_iff_of_lt (show ('\x07' : Char).toNat < 0x41 by decide),
    toLower_eq_iff_of_lt (show ('\x16' : Char).toNat < 0x41 by decide),
    toLower_eq_iff_of_lt (show ('\x1f' : Char).toNat < 0x41 by decide)]

theorem colorDigits_map (t : Str) : colorDigits (t.map toLower) = (colorDigits t).map toLower := by
  have hdigit : Char.isDigit ∘ toLower = Char.isDigit := funext isDigit_toLower
  rw [colorDigits, List.takeWhile_map, hdigit, ← List.map_take, ← colorDigits]

theorem afterColor_map (t : Str) : afterColor (t.map toLower) = (afterColor t).map toLower := by
  unfold afterColor
  simp only [colorDigits_map, List.length_map, ← List.map_drop, List.map_eq_nil_iff]
  cases t.drop (colorDigits t).length with
  | nil => rfl
  | cons c back =>
      by_cases hc : c = ','
      · subst hc
        have hcomma : toLower ',' = ',' := by decide
        simp only [List.map_cons, hcomma, colorDigits_map, List.map_eq_nil_iff, List.length_map,
          ← List.map_drop]
        split_ifs
        · simp only [List.map_cons, hcomma]
        · rfl
      · have hlower : toLower c ≠ ',' := (toLower_eq_iff_of_lt (by decide)).not.mpr hc
        rw [List.map_cons]
        split
        · rename_i hcons
          exact absurd (List.cons.inj hcons).1 hlower
        · split
          · rename_i hcons
            exact absurd (List.cons.inj hcons).1 hc
          · rfl

theorem plainText_map (text : Str) :
    plainText (text.map toLower) = (plainText text).map toLower := by
  fun_induction plainText text with
  | case1 => rw [List.map_nil, plainText]
  | case2 c t hc ih => rw [List.map_cons, plainText, isFormat_toLower, if_pos hc, ih]
  | case3 t hc ih =>
      have hcolor : toLower '\x03' = '\x03' := by decide
      rw [List.map_cons, hcolor, plainText, if_neg (by decide), if_pos rfl, afterColor_map, ih]
  | case4 c t hc hcolor ih =>
      rw [List.map_cons, plainText, isFormat_toLower, if_neg hc,
        if_neg ((toLower_eq_iff_of_lt (by decide)).not.mpr hcolor), ih, List.map_cons]

end Blind

section Verdict

variable {spamsgs : List Str}

theorem verificaSpamsg_iff {text : Str} : verificaSpamsg spamsgs text = true ↔
    ∃ msg ∈ spamsgs, msg <:+: (plainText text).map toLower := by
  simp only [verificaSpamsg, List.any_eq_true, decide_eq_true_eq, stripCodes_eq]

/-- A message that is found has no capital letter. -/
theorem map_toLower_of_found {msg s : Str} (h : msg <:+: s.map toLower) :
    msg.map toLower = msg := by
  refine List.map_congr_left (g := id) (fun c hc => ?_) |>.trans (List.map_id msg)
  obtain ⟨d, -, rfl⟩ := List.mem_map.mp (h.subset hc)
  exact toLower_toLower d

theorem plain_of_toLower_eq {c d : Char} (h : toLower c = toLower d)
    (hd : isFormat d = false ∧ d ≠ '\x03') : isFormat c = false ∧ c ≠ '\x03' := by
  rw [← isFormat_toLower, h, isFormat_toLower]
  refine ⟨hd.1, ?_⟩
  rintro rfl
  exact hd.2 ((toLower_eq_iff_of_lt (by decide)).mp h.symm)

theorem sendable_of_found {msg text : Str} (hlen : text.length ≤ 510)
    (h : msg.map toLower <:+: (plainText text).map toLower) : Sendable msg := by
  constructor
  · have hle := h.length_le
    rw [List.length_map, List.length_map] at hle
    exact hle.trans ((length_plainText_le text).trans hlen)
  · intro c hc
    obtain ⟨d, hd, heq⟩ := List.mem_map.mp (h.subset (List.mem_map_of_mem hc))
    exact plain_of_toLower_eq heq.symm (plain_of_mem_plainText hd)

end Verdict

/-- The filter does what it is for if and only if every message that can be sent at all contains,
ignoring case, a stored one without capital letters. -/
theorem filtersSpam_iff (spamsgs : List Str) : FiltersSpam spamsgs ↔
    ∀ msg ∈ spamsgs, Sendable msg →
      ∃ msg' ∈ spamsgs, msg'.map toLower = msg' ∧ msg' <:+: msg.map toLower := by
  constructor
  · intro h msg hmsg hsend
    have hplain : plainText msg = msg := plainText_of_plain hsend.2
    have hflag := (h.flags msg hsend.1).mpr ⟨msg, hmsg, by rw [hplain]⟩
    obtain ⟨msg', hmsg', hfound⟩ := verificaSpamsg_iff.mp hflag
    rw [hplain] at hfound
    exact ⟨msg', hmsg', map_toLower_of_found hfound, hfound⟩
  · intro h
    constructor
    · intro text hlen
      rw [verificaSpamsg_iff]
      constructor
      · rintro ⟨msg, hmsg, hfound⟩
        exact ⟨msg, hmsg, by rwa [map_toLower_of_found hfound]⟩
      · rintro ⟨msg, hmsg, hfound⟩
        obtain ⟨msg', hmsg', -, hfound'⟩ := h msg hmsg (sendable_of_found hlen hfound)
        exact ⟨msg', hmsg', hfound'.trans hfound⟩
    · intro text text' heq
      rw [Bool.eq_iff_iff, verificaSpamsg_iff, verificaSpamsg_iff, ← plainText_map,
        ← plainText_map, heq]
    · intro s code t hs hcode
      rw [Bool.eq_iff_iff, verificaSpamsg_iff, verificaSpamsg_iff, hs, plainText_code hcode, ← hs]
    · intro text hlen
      rw [stripCodes_eq, List.length_map]
      exact ((length_plainText_le text).trans hlen).trans_lt (by decide)

/-- The message has a capital letter. -/
theorem not_forall_filtersSpam : ¬ ∀ spamsgs, FiltersSpam spamsgs := by
  intro h
  have hplain : plainText "buy".toList = "buy".toList := plainText_of_plain (by simp [isFormat])
  have hflag := ((h ["Buy".toList]).flags "buy".toList (by decide)).mpr
    ⟨_, List.mem_cons_self, by rw [hplain]; decide⟩
  obtain ⟨msg, hmsg, hfound⟩ := verificaSpamsg_iff.mp hflag
  rw [List.mem_singleton.mp hmsg, hplain] at hfound
  exact absurd hfound (by decide)

end Unirc
