import Mathlib.Data.List.Chain
import Unirc.Bans

/-!
# The flood limit of a channel

The tests of `can_send` on a text: the limit of mode `f`, then the ones for spam and for lines that
are sent again. The limit counts the messages that follow one another in less than `per` seconds.
-/

namespace Unirc

/-- What `Membership` keeps of the messages. -/
structure FloodMember where
  nmsg : ℤ
  lmsg : Option Str
  lmsgTime : ℤ
  deriving DecidableEq

/-- The fields that `add_user_to_channel` sets. -/
def FloodMember.new : FloodMember := ⟨0, none, 0⟩

/-- Mode `f` of a channel, where it is set. -/
structure FloodLimit where
  msgs : ℕ
  per : ℕ
  msgs_pos : 0 < msgs
  per_pos : 0 < per

/-- A text that comes to the tests, with the time and the modes of the channel that play a part. -/
structure Sending where
  now : ℤ
  nospam : Bool
  noflood : Bool
  text : Str
  deriving DecidableEq

/-- `check_for_chan_flood` -/
def checkForChanFlood (limit : FloodLimit) (now : ℤ) (lp : FloodMember) : FloodMember × Bool :=
  if limit.msgs ≤ 1 ∨ limit.per < 1 then (lp, false)
  else if limit.per ≤ now - lp.lmsgTime then ({ lp with lmsgTime := now, nmsg := 1 }, false)
  else ({ lp with lmsgTime := now, nmsg := lp.nmsg + 1 }, decide ((limit.msgs : ℤ) ≤ lp.nmsg + 1))

/-- What `check_nospam` skips after the `^C` of a colour. -/
def skipColor (t : Str) : Str :=
  match t with
  | d :: t =>
      if d.isDigit then
        let t := if (t.head?.any Char.isDigit) then t.tail else t
        if t.head? = some ',' then
          let t := if t.tail.head?.any Char.isDigit then t.drop 2 else t
          if t.head?.any Char.isDigit then t.tail else t
        else t
      else d :: t
  | [] => []

theorem length_skipColor_le (t : Str) : (skipColor t).length ≤ t.length := by
  unfold skipColor
  split
  · dsimp only
    split_ifs <;> simp <;> omega
  · exact Nat.le_refl _

/-- The text without its codes, in lower case. -/
def stripCodes : Str → Str
  | [] => []
  | c :: t =>
      if c = '\x02' ∨ c = '\x07' ∨ c = '\x16' ∨ c = '\x1f' then stripCodes t
      else if c = '\x03' then stripCodes (skipColor t)
      else toLower c :: stripCodes t
termination_by t => t.length
decreasing_by
  all_goals
    have := length_skipColor_le t
    simp only [List.length_cons]
    omega

/-- The words that `check_nospam` looks for. -/
def spamWords : List Str :=
  ["http".toList, "www.".toList, "/server".toList, "irc.".toList, "ftp://".toList]

/-- `check_nospam`: whether the text is turned down. -/
def checkNospam (text : Str) : Bool := spamWords.any fun w => decide (w <:+: stripCodes text)

/-- Whether the first word of the text with a `#` in it is another channel from there on. -/
def namesOther (chname text : Str) : Bool :=
  match text.dropWhile (· ≠ '#') with
  | [] => false
  | cp =>
      let word := cp.takeWhile (· ≠ ' ')
      word.length != chname.length || word.map Char.toLower != chname.map Char.toLower

abbrev ChanFloodTime : ℤ := 10

/-- The tests of `can_send` on a text of a member, with the code that they return. -/
def textTests (limit : FloodLimit) (chname : Str) (ms : FloodMember) (e : Sending) :
    FloodMember × Option ℤ :=
  let (ms, flood) := checkForChanFlood limit e.now ms
  if flood then (ms, some (-6))
  else if e.nospam && (checkNospam e.text || namesOther chname e.text) then (ms, some (-4))
  else if e.noflood then
    if ms.lmsg = some e.text ∧ e.now - ms.lmsgTime < ChanFloodTime then (ms, some (-5))
    else ({ ms with lmsg := some e.text, lmsgTime := e.now }, none)
  else (ms, none)

/-- The membership after some messages. -/
def floodMember (limit : FloodLimit) (chname : Str) (sends : List Sending) : FloodMember :=
  sends.foldl (fun ms e => (textTests limit chname ms e).1) .new

/-- The limit turns a message down that comes after others. -/
def Floods (limit : FloodLimit) (chname : Str) (before : List Sending) (e : Sending) : Prop :=
  (textTests limit chname (floodMember limit chname before) e).2 = some (-6)

/-- The messages of the `per` seconds that end with `e`. -/
def window (limit : FloodLimit) (sends : List Sending) (e : Sending) : List Sending :=
  sends.filter fun e' => e.now - limit.per < e'.now

/-- A message is turned down if and only if it and those before it in a window are enough. -/
def LimitsFlood (limit : FloodLimit) (chname : Str) (sends : List Sending) : Prop :=
  ∀ before e, before ++ [e] <+: sends →
    (Floods limit chname before e ↔ limit.msgs ≤ (window limit (before ++ [e]) e).length)

/-- The second message comes less than `per` seconds after the first one. -/
def Close (limit : FloodLimit) (a b : Sending) : Prop := b.now - a.now < (limit.per : ℤ)

instance (limit : FloodLimit) (a b : Sending) : Decidable (Close limit a b) :=
  inferInstanceAs (Decidable (_ < _))

/-- So many messages in a row that each is close to the one before, but all of them do not fit in a
window. -/
def Creeps (limit : FloodLimit) (row : List Sending) : Prop :=
  row.length = limit.msgs ∧ row.IsChain (Close limit) ∧
    ∃ a ∈ row.head?, ∃ b ∈ row.getLast?, (limit.per : ℤ) ≤ b.now - a.now

namespace FloodLimit

variable {limit : FloodLimit} {chname : Str} {sends : List Sending} {e : Sending}

/-- The length of the row that the latest message ends; the latest comes first. -/
def rowLength (limit : FloodLimit) : List Sending → ℕ
  | [] => 0
  | [_] => 1
  | a :: b :: l => if Close limit b a then rowLength limit (b :: l) + 1 else 1

/-- What the tests leave of the counter is what the flood test leaves. -/
theorem textTests_counter (hmsgs : 1 < limit.msgs) (ms : FloodMember) :
    (textTests limit chname ms e).1.nmsg = (checkForChanFlood limit e.now ms).1.nmsg ∧
      (textTests limit chname ms e).1.lmsgTime = e.now := by
  have htime : (checkForChanFlood limit e.now ms).1.lmsgTime = e.now := by
    rw [checkForChanFlood, if_neg (by have := limit.per_pos; omega)]
    split <;> rfl
  unfold textTests
  dsimp only
  split_ifs
  all_goals exact ⟨rfl, by first | exact htime | rfl⟩

theorem textTests_flood (ms : FloodMember) :
    (textTests limit chname ms e).2 = some (-6) ↔
      (checkForChanFlood limit e.now ms).2 = true := by
  unfold textTests
  dsimp only
  split_ifs with hflood
  all_goals simp [hflood]

theorem checkForChanFlood_counter (hmsgs : 1 < limit.msgs) (ms : FloodMember) {now : ℤ} :
    (checkForChanFlood limit now ms).1.nmsg =
      (if limit.per ≤ now - ms.lmsgTime then 1 else ms.nmsg + 1) ∧
    ((checkForChanFlood limit now ms).2 = true ↔ now - ms.lmsgTime < limit.per ∧
      (limit.msgs : ℤ) ≤ ms.nmsg + 1) := by
  rw [checkForChanFlood, if_neg (by have := limit.per_pos; omega)]
  split
  · rename_i hgap
    exact ⟨rfl, by simp; omega⟩
  · rename_i hgap
    exact ⟨rfl, by simp; omega⟩

/-- The counter is the length of the row that the last message ends. -/
theorem floodMember_spec (hmsgs : 1 < limit.msgs) :
    (floodMember limit chname sends).nmsg = limit.rowLength sends.reverse ∧
      ∀ e ∈ sends.reverse.head?, (floodMember limit chname sends).lmsgTime = e.now := by
  induction sends using List.reverseRecOn with
  | nil => exact ⟨rfl, by simp⟩
  | append_singleton before e ih =>
      obtain ⟨hn, htime⟩ := @textTests_counter _ chname e hmsgs
        (floodMember limit chname before)
      obtain ⟨hcount, -⟩ := @checkForChanFlood_counter _ hmsgs
        (floodMember limit chname before) e.now
      have hfold : floodMember limit chname (before ++ [e]) =
          (textTests limit chname (floodMember limit chname before) e).1 := by
        rw [floodMember, List.foldl_append]
        rfl
      rw [hfold, hn, hcount, htime, List.reverse_concat]
      refine ⟨?_, by simp⟩
      obtain ⟨ihn, ihtime⟩ := ih
      cases hrev : before.reverse with
      | nil =>
          rw [hrev] at ihn
          rw [ihn]
          split <;> rfl
      | cons b l =>
          rw [hrev] at ihn ihtime
          rw [ihn, ihtime b rfl, rowLength]
          by_cases hgap : Close limit b e
          · rw [if_neg (not_le.mpr hgap), if_pos hgap]
            push_cast
            rfl
          · rw [if_pos (not_lt.mp hgap), if_neg hgap]
            rfl

theorem floods_iff (hmsgs : 1 < limit.msgs) :
    Floods limit chname sends e ↔ limit.msgs ≤ limit.rowLength (e :: sends.reverse) := by
  obtain ⟨hn, htime⟩ := @floodMember_spec _ chname sends hmsgs
  rw [Floods, textTests_flood, (checkForChanFlood_counter hmsgs _).2, hn]
  cases hrev : sends.reverse with
  | nil =>
      simp only [rowLength]
      omega
  | cons b l =>
      rw [hrev] at htime
      rw [htime b rfl, rowLength]
      split
      · rename_i hgap
        rw [Close] at hgap
        omega
      · rename_i hgap
        rw [Close] at hgap
        simp only [hgap, false_and, false_iff]
        omega

theorem le_rowLength_iff {m : ℕ} {l : List Sending} : m ≤ limit.rowLength l ↔
    m ≤ l.length ∧ (l.take m).IsChain fun a b => Close limit b a := by
  induction l generalizing m with
  | nil =>
      rw [List.take_nil]
      exact ⟨fun h => ⟨h, List.isChain_nil⟩, fun h => h.1⟩
  | cons a l ih =>
      cases m with
      | zero => simp
      | succ k =>
          cases l with
          | nil => simp [rowLength]
          | cons b l =>
              rw [rowLength, List.take_succ_cons, List.length_cons]
              by_cases hgap : Close limit b a
              · rw [if_pos hgap, Nat.add_le_add_iff_right, Nat.add_le_add_iff_right, ih]
                cases k with
                | zero => simp
                | succ j => simp [hgap]
              · rw [if_neg hgap]
                cases k with
                | zero => simp
                | succ j => simp [hgap]

/-- In a list that `p` holds for at the front only, as many fit it as come first. -/
theorem le_length_filter_iff {α : Type*} {p : α → Bool} {m : ℕ} {l : List α}
    (h : l.Pairwise fun a b => p b = true → p a = true) :
    m ≤ (l.filter p).length ↔ m ≤ l.length ∧ ∀ x ∈ l.take m, p x = true := by
  induction l generalizing m with
  | nil => simp
  | cons a l ih =>
      obtain ⟨ha, hl⟩ := List.pairwise_cons.mp h
      cases m with
      | zero => simp
      | succ k =>
          rw [List.take_succ_cons]
          cases hp : p a with
          | true =>
              rw [List.filter_cons_of_pos hp, List.length_cons, List.length_cons,
                Nat.add_le_add_iff_right, Nat.add_le_add_iff_right, ih hl]
              simp [hp]
          | false =>
              have hnil : l.filter p = [] := by
                rw [List.filter_eq_nil_iff]
                intro x hx hpx
                rw [ha x hx hpx] at hp
                cases hp
              rw [List.filter_cons_of_neg (by simp [hp]), hnil]
              simp [hp]

variable {before : List Sending}

/-- The messages up to `e`, the latest first. -/
theorem le_length_window_iff (hsorted : (before ++ [e]).Pairwise (·.now ≤ ·.now)) {m : ℕ} :
    m ≤ (window limit (before ++ [e]) e).length ↔ m ≤ (e :: before.reverse).length ∧
      ∀ x ∈ (e :: before.reverse).take m, e.now - limit.per < x.now := by
  have hrev : (e :: before.reverse) = (before ++ [e]).reverse := List.reverse_concat.symm
  have hlength : (window limit (before ++ [e]) e).length =
      ((e :: before.reverse).filter fun e' => e.now - limit.per < e'.now).length := by
    rw [hrev, List.filter_reverse, List.length_reverse, window]
  rw [hlength, le_length_filter_iff]
  · simp
  · rw [hrev, List.pairwise_reverse]
    refine hsorted.imp fun {a b} hab ha => ?_
    simp only [decide_eq_true_eq] at ha ⊢
    omega

/-- Messages in a window follow one another closely. -/
theorem isChain_of_window (hsorted : (before ++ [e]).Pairwise (·.now ≤ ·.now)) {m : ℕ}
    (h : ∀ x ∈ (e :: before.reverse).take m, e.now - limit.per < x.now) :
    ((e :: before.reverse).take m).IsChain fun a b => Close limit b a := by
  have hle : ∀ x ∈ e :: before.reverse, x.now ≤ e.now := by
    intro x hx
    rcases List.mem_cons.mp hx with rfl | hx
    · exact le_refl _
    · exact (List.pairwise_append.mp hsorted).2.2 x (List.mem_reverse.mp hx) e
        (List.mem_singleton_self e)
  refine List.Pairwise.isChain (List.pairwise_of_forall_mem_list fun a ha b hb => ?_)
  have ha' := hle a (List.mem_of_mem_take ha)
  have hb' := h b hb
  rw [Close]
  omega

end FloodLimit

open FloodLimit in
/-- The limit does what it says unless messages creep, or it is one message. -/
theorem limitsFlood_iff (limit : FloodLimit) (chname : Str) (sends : List Sending)
    (hsorted : sends.Pairwise (·.now ≤ ·.now)) : LimitsFlood limit chname sends ↔
      (limit.msgs = 1 → sends = []) ∧ ∀ row, row <:+: sends → ¬ Creeps limit row := by
  have hpos := limit.msgs_pos
  have hper := limit.per_pos
  by_cases hone : limit.msgs = 1
  · have hnot : ∀ before e, ¬ Floods limit chname before e := by
      intro before e
      rw [Floods, textTests_flood, checkForChanFlood, if_pos (by omega)]
      simp
    have hwindow : ∀ before (e : Sending),
        limit.msgs ≤ (window limit (before ++ [e]) e).length := by
      intro before e
      have hin : e ∈ window limit (before ++ [e]) e := by
        refine List.mem_filter.mpr ⟨List.mem_concat_self, ?_⟩
        simp only [decide_eq_true_eq]
        omega
      rw [hone]
      exact List.length_pos_of_mem hin
    constructor
    · intro h
      refine ⟨fun _ => ?_, fun row _ hcreeps => ?_⟩
      · by_contra hne
        obtain ⟨before, e, rfl⟩ := (List.eq_nil_or_concat' sends).resolve_left hne
        exact hnot before e ((h before e (List.prefix_refl _)).mpr (hwindow before e))
      · obtain ⟨hlength, -, a, ha, b, hb, hgap⟩ := hcreeps
        rw [hone] at hlength
        obtain ⟨c, rfl⟩ := List.length_eq_one_iff.mp hlength
        have hac : c = a := Option.some.inj ha
        have hbc : c = b := Option.some.inj hb
        rw [← hac, ← hbc] at hgap
        omega
    · rintro ⟨hnil, -⟩ before e hpre
      rw [hnil hone, List.prefix_nil] at hpre
      exact absurd hpre (by simp)
  · have hmsgs : 1 < limit.msgs := by omega
    constructor
    · refine fun h => ⟨fun h1 => absurd h1 hone, ?_⟩
      rintro row ⟨pre, post, rfl⟩ ⟨hlength, hchain, a, ha, b, hb, hgap⟩
      have hne : row ≠ [] := List.ne_nil_of_length_pos (by omega)
      obtain ⟨row, e, rfl⟩ := (List.eq_nil_or_concat' row).resolve_left hne
      have hbe : b = e := by simpa using hb.symm
      subst hbe
      have hpre : (pre ++ row) ++ [b] <+: pre ++ (row ++ [b]) ++ post := ⟨post, by simp⟩
      have hs : ((pre ++ row) ++ [b]).Pairwise (·.now ≤ ·.now) := hsorted.sublist hpre.sublist
      have htake : (b :: (pre ++ row).reverse).take limit.msgs = (row ++ [b]).reverse := by
        have hrev : b :: (pre ++ row).reverse = (row ++ [b]).reverse ++ pre.reverse := by simp
        rw [hrev, List.take_left' (by rw [List.length_reverse, hlength])]
      have hrow : limit.msgs ≤ limit.rowLength (b :: (pre ++ row).reverse) := by
        rw [le_rowLength_iff, htake, List.isChain_reverse]
        refine ⟨?_, hchain⟩
        rw [← hlength]
        simp
      have hcount := (h (pre ++ row) b hpre).mp ((floods_iff hmsgs).mpr hrow)
      rw [le_length_window_iff hs, htake] at hcount
      have hin := hcount.2 a (List.mem_reverse.mpr (List.mem_of_mem_head? ha))
      omega
    · rintro ⟨-, hcreeps⟩ before e hpre
      have hs : (before ++ [e]).Pairwise (·.now ≤ ·.now) := hsorted.sublist hpre.sublist
      rw [floods_iff hmsgs, le_rowLength_iff, le_length_window_iff hs]
      refine and_congr_right fun hlength => ⟨fun hchain => ?_, isChain_of_window hs⟩
      by_contra hout
      push Not at hout
      obtain ⟨x, hx, hgap⟩ := hout
      set latest := (e :: before.reverse).take limit.msgs
      have hlatest : latest.length = limit.msgs := List.length_take_of_le hlength
      obtain ⟨l, y, hy⟩ := (List.eq_nil_or_concat' latest).resolve_left (List.ne_nil_of_mem hx)
      have hhead : latest.head? = some e := by
        obtain ⟨k, hk⟩ := Nat.exists_eq_succ_of_ne_zero (Nat.ne_of_gt hpos)
        simp [latest, hk]
      have hdesc : latest.Pairwise fun a b => b.now ≤ a.now := by
        have hrev : (e :: before.reverse) = (before ++ [e]).reverse := List.reverse_concat.symm
        refine List.Pairwise.sublist (List.take_sublist _ _) ?_
        rw [hrev, List.pairwise_reverse]
        exact hs
      have hyx : y.now ≤ x.now := by
        rw [hy] at hx hdesc
        rcases List.mem_append.mp hx with hx | hx
        · exact (List.pairwise_append.mp hdesc).2.2 x hx y (List.mem_singleton_self y)
        · rw [List.mem_singleton.mp hx]
      refine hcreeps latest.reverse ?_ ⟨by rw [List.length_reverse, hlatest], ?_, y, ?_, e, ?_, ?_⟩
      · have hsuffix : latest.reverse <:+ before ++ [e] := by
          have hrev : (before ++ [e]) = (e :: before.reverse).reverse := by simp
          rw [hrev, List.reverse_suffix]
          exact List.take_prefix _ _
        exact hsuffix.isInfix.trans hpre.isInfix
      · rw [List.isChain_reverse]
        exact hchain
      · rw [List.head?_reverse, hy]
        simp
      · rw [List.getLast?_reverse, hhead]
        rfl
      · omega

/-- A message without text at a time, on a channel without the other two modes. -/
def Sending.plain (now : ℤ) : Sending := ⟨now, false, false, []⟩

theorem limitsFlood_iff_burst :
    LimitsFlood ⟨3, 10, by decide, by decide⟩ "#c".toList ([1000, 1001, 1002].map Sending.plain) ↔
      ((3 = 1 → [1000, 1001, 1002].map Sending.plain = []) ∧
        ∀ row, row <:+: [1000, 1001, 1002].map Sending.plain →
          ¬ Creeps ⟨3, 10, by decide, by decide⟩ row) :=
  limitsFlood_iff _ _ _ (by simp [Sending.plain])

/-- One message every nine seconds is turned down by a limit of three in ten seconds. -/
theorem not_limitsFlood : ¬ ∀ (limit : FloodLimit) (chname : Str) (sends : List Sending),
    sends.Pairwise (·.now ≤ ·.now) → LimitsFlood limit chname sends := by
  intro h
  have hlimits := h ⟨3, 10, by decide, by decide⟩ "#c".toList
    ([1000, 1009, 1018].map Sending.plain) (by simp [Sending.plain])
    ([1000, 1009].map Sending.plain) (.plain 1018) (List.prefix_refl _)
  have hfloods : Floods ⟨3, 10, by decide, by decide⟩ "#c".toList
      ([1000, 1009].map Sending.plain) (.plain 1018) := by
    unfold Floods
    decide
  exact absurd (hlimits.mp hfloods) (by decide)

end Unirc
