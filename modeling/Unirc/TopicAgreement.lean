import Unirc.TopicBurst
import Unirc.UidRoundTrip

/-!
# Whether the topics agree after a burst

The SJOIN lines of a burst have merged the timestamps of the channel when the TBURST behind them is
read. So the topic of the older channel does not win any more, unless it is newer as well.
-/

namespace Unirc

open Replicas

section Link

variable {chname : GlobalName} {p : Pair TopicSite TopicMessage}

theorem settled_topicStep (s t : Bool) :
    (topicStep chname p s).settled (TopicSite.receive chname) t =
      p.settled (TopicSite.receive chname) t := by
  unfold topicStep
  split
  · rfl
  · rename_i m ms hflight
    exact Pair.settled_take hflight t

/-- The order in which the servers read makes no difference. -/
theorem settled_run (schedule : List Bool) (t : Bool) :
    (schedule.foldl (topicStep chname) p).settled (TopicSite.receive chname) t =
      p.settled (TopicSite.receive chname) t := by
  induction schedule generalizing p with
  | nil => rfl
  | cons s schedule ih => rw [List.foldl_cons, ih, settled_topicStep]

theorem state_run {schedule : List Bool} {t : Bool}
    (hidle : (schedule.foldl (topicStep chname) p).flight t = []) :
    (schedule.foldl (topicStep chname) p).state t =
      p.settled (TopicSite.receive chname) t := by
  rw [← settled_run schedule t, Pair.settled, hidle, List.foldl_nil]

end Link

namespace TopicSite

variable (chname : GlobalName) (x y : TopicSite)

section Timestamps

/-- The timestamp after an SJOIN with the timestamp `newts`. -/
def mergeTs (newts oldts : ℤ) : ℤ :=
  (tsVerdict false (checkBogusTs x.ignoreBogusTs newts oldts) oldts).channelts

theorem channelts_tsVerdict (newts oldts : ℤ) : (tsVerdict false newts oldts).channelts =
    if newts = 0 ∨ oldts = 0 then 0 else min newts oldts := by
  simp only [tsVerdict, Bool.false_eq_true, if_false, apply_ite TsVerdict.channelts]
  split_ifs <;> omega

theorem mergeTs_mergeTs (newts oldts : ℤ) :
    x.mergeTs newts (x.mergeTs newts oldts) = x.mergeTs newts oldts := by
  simp only [mergeTs, channelts_tsVerdict, checkBogusTs]
  split_ifs <;> omega

/-- The timestamps of `y` as they are read from its lines. -/
def sentTs : ℤ := Decimal.atol (formatULong y.channelts)

def sentTime : ℤ := Decimal.atol (formatULong y.topicTime)

/-- The SJOIN line of `y` for these nicks has a header that can be read. -/
def readable (nicks : Str) : Bool :=
  (parseSjoin (stringToArray (burstLine y.channelts chname y.mode nicks))).isSome

/-- The timestamp at `x` after the SJOIN lines of `y`. -/
def mergedTs : ℤ :=
  if y.nicks.any (y.readable chname) then x.mergeTs y.sentTs x.channelts else x.channelts

theorem newts_of_parseSjoin {ts : ℤ} {m : Mode} {nicks : Str} {h : SjoinHeader}
    (hparse : parseSjoin (stringToArray (burstLine ts chname m nicks)) = some h) :
    h.newts = Decimal.atol (formatULong ts) := by
  have hwords := splitArgs_word (isWord_formatULong ts) 12
    (chname.val ++ ' ' :: ((channelModes m true).1 ++
      ' ' :: ((channelModes m true).2 ++ ':' :: nicks)))
  rw [stringToArray, burstLine, hwords] at hparse
  unfold parseSjoin at hparse
  split at hparse
  · rename_i heq
    obtain ⟨rfl, -⟩ := List.cons_eq_cons.mp heq
    split_ifs at hparse
    split at hparse
    · cases hparse
    · rw [← Option.some.inj hparse]
  · cases hparse

theorem receive_sjoin (nicks : Str) : ∃ mode, x.receive chname
    (.sjoin (burstLine y.channelts chname y.mode nicks)) =
      { x with
        channelts := if y.readable chname nicks then x.mergeTs y.sentTs x.channelts else x.channelts
        mode := mode } := by
  unfold receive receiveSjoin readable
  cases hparse : parseSjoin (stringToArray (burstLine y.channelts chname y.mode nicks)) with
  | none => exact ⟨x.mode, by simp only [hparse]; rfl⟩
  | some h =>
      have hts := newts_of_parseSjoin chname hparse
      refine ⟨(tsVerdict false (checkBogusTs x.ignoreBogusTs h.newts x.channelts) x.channelts).merge
        h.mode x.mode, ?_⟩
      simp only [hparse, Option.getD_some, Option.isSome_some, if_true, Option.isNone_some, mergeTs,
        sentTs, hts]

theorem foldl_sjoin (lines : List Str) : ∃ mode,
    (lines.map fun nicks => .sjoin (burstLine y.channelts chname y.mode nicks)).foldl
      (fun x m => receive chname m x) x =
      { x with
        channelts := if lines.any (y.readable chname) then x.mergeTs y.sentTs x.channelts
          else x.channelts
        mode := mode } := by
  induction lines generalizing x with
  | nil => exact ⟨x.mode, rfl⟩
  | cons nicks lines ih =>
      obtain ⟨mode, hfirst⟩ := receive_sjoin chname x y nicks
      rw [List.map_cons, List.foldl_cons, hfirst]
      obtain ⟨mode', hrest⟩ := ih { x with
        channelts := if y.readable chname nicks then x.mergeTs y.sentTs x.channelts else x.channelts
        mode := mode }
      refine ⟨mode', hrest.trans ?_⟩
      have hmerge : ∀ oldts, ({ x with
        channelts := if y.readable chname nicks then x.mergeTs y.sentTs x.channelts else x.channelts
        mode := mode } : TopicSite).mergeTs y.sentTs oldts = x.mergeTs y.sentTs oldts :=
        fun _ => rfl
      simp only [hmerge, List.any_cons]
      by_cases hfirst : y.readable chname nicks = true <;>
        by_cases hany : lines.any (y.readable chname) = true <;>
        simp [hfirst, hany, mergeTs_mergeTs]

end Timestamps

section Line

theorem length_tburstStart_le : (y.tburstStart chname).length ≤ 430 := by
  have hname : y.name.val.val.length < 64 := y.name.val.property
  have hchan : chname.val.length ≤ 200 := by
    obtain ⟨s, hs, hc⟩ := chname
    cases s with
    | nil => cases hs
    | cons c s =>
        simp only [checkChannelName, Bool.and_eq_true, decide_eq_true_eq] at hc
        exact hc.2
  have hinfo : y.info.length < 109 := by
    unfold info
    cases y.topic with
    | none => decide
    | some t => exact t.info.property
  have hts := length_formatULong_le y.channelts
  have htime := length_formatULong_le y.topicTime
  have htburst : "TBURST".toList.length = 6 := rfl
  simp only [tburstStart, List.length_cons, List.length_append, List.length_nil, htburst]
  omega

/-- The part of the topic that fits into the line. -/
def sentText : Str := y.text.take (IRCD_BUFSIZE - 2 - (y.tburstStart chname).length)

theorem sendTb_eq : y.sendTb chname =
    if y.topicTime ≠ 0 then some (y.tburstStart chname ++ y.sentText chname) else none := by
  have hle := y.length_tburstStart_le chname
  have hroom : (y.tburstStart chname).length ≤ IRCD_BUFSIZE - 2 := hle.trans (by decide)
  rw [sendTb, List.take_append, List.take_of_length_le hroom, sentText]

/-- The parameters behind the topic time. -/
def sentParams : List Str := splitArgs 10 (y.info ++ ' ' :: ':' :: y.sentText chname)

theorem splitLine_sendTb : splitLine (y.tburstStart chname ++ y.sentText chname) =
    ("TBURST".toList, formatULong y.channelts :: chname.val :: formatULong y.topicTime ::
      y.sentParams chname) := by
  have htburst : ' ' ∉ "TBURST".toList := by decide
  have hline := splitLine_command y.name.property htburst (by decide)
    (formatULong y.channelts ++ ' ' :: (chname.val ++ ' ' ::
      (formatULong y.topicTime ++ ' ' :: (y.info ++ ' ' :: ':' :: y.sentText chname))))
  rw [stringToArray, splitArgs_word (isWord_formatULong _), splitArgs_word (isWord_globalName _),
    splitArgs_word (isWord_formatULong _)] at hline
  rw [sentParams]
  simpa only [tburstStart, List.append_assoc, List.cons_append, List.nil_append] using hline

theorem sentParams_ne_nil : y.sentParams chname ≠ [] := by
  have hskip : skipBlanks (y.info ++ ' ' :: ':' :: y.sentText chname) ≠ [] := by
    intro h
    have hall := List.dropWhile_eq_nil_iff.mp h ':' (by simp)
    exact absurd (of_decide_eq_true hall) (by decide)
  rw [sentParams, splitArgs]
  split
  · rename_i heq
    exact absurd heq hskip
  · split
    · simp
    · split <;> simp

/-- The topic that the line of `y` sets. -/
def said : Option Topic :=
  if (topicParams (y.sentParams chname)).1 = [] then none
  else some ⟨Buf.strlcpy (topicParams (y.sentParams chname)).1,
    Buf.strlcpy (topicParams (y.sentParams chname)).2⟩

end Line

section Verdict

/-- `x` takes the topic of `y`: its channel is not older as `y` sent it, and its topic is newer. -/
def Takes : Prop :=
  y.topicTime ≠ 0 ∧ (y.sentTs < x.mergedTs chname y ∨
    y.sentTs = x.mergedTs chname y ∧ x.topicTime < y.sentTime)

instance : Decidable (x.Takes chname y) := inferInstanceAs (Decidable (_ ∧ _))

/-- What the line of `y` leaves at `x` is what `y` has. -/
def Delivers : Prop :=
  match y.topic with
  | none => x.topicTime = y.topicTime
  | some t => t.text.val ≠ [] ∧ IsWord t.info.val ∧
      (y.tburstStart chname ++ t.text.val).length ≤ IRCD_BUFSIZE - 2 ∧
      0 ≤ y.topicTime ∧ y.topicTime < 2 ^ 63

instance : Decidable (x.Delivers chname y) := by
  unfold Delivers
  cases y.topic <;> simp only <;> infer_instance

/-- The lines of both say the same. -/
def Swapped : Prop :=
  x.said chname = y.said chname ∧
    if (x.said chname).isSome then x.sentTime = y.sentTime else x.topicTime = y.topicTime

instance : Decidable (x.Swapped chname y) := inferInstanceAs (Decidable (_ ∧ _))

def view : Option Topic × ℤ := (x.topic, x.topicTime)

/-- The topic and its time at `x` once it has read the burst of `y`. -/
def viewAfter : Option Topic × ℤ :=
  if x.Takes chname y then
    (y.said chname, if (y.said chname).isSome then y.sentTime else x.topicTime)
  else x.view

theorem view_setChannelTopic (topic info : Str) (time : ℤ) :
    (x.setChannelTopic topic info time).view =
      (if topic = [] then none else some ⟨Buf.strlcpy topic, Buf.strlcpy info⟩,
        if topic = [] then x.topicTime else time) := by
  unfold setChannelTopic view
  split_ifs <;> simp_all

/-- What a line of `y` leaves at `z`. -/
theorem view_receive_said (z : TopicSite) :
    (z.receive chname (.tburst (y.tburstStart chname ++ y.sentText chname))).view =
      if z.acceptRemote y.sentTs y.sentTime then
        (y.said chname, if (y.said chname).isSome then y.sentTime else z.topicTime)
      else z.view := by
  have hne := y.sentParams_ne_nil chname
  have hcmp : irccmp chname.val chname.val = false := (irccmp_eq_false_iff _ _).mpr rfl
  simp only [receive, splitLine_sendTb, msTburst, hne, hcmp, Bool.false_eq_true, or_self, if_false]
  change (if z.acceptRemote y.sentTs y.sentTime = true then z.setChannelTopic
    (topicParams (y.sentParams chname)).1 (topicParams (y.sentParams chname)).2 y.sentTime
      else z).view = _
  rw [apply_ite view, view_setChannelTopic]
  refine if_congr Iff.rfl ?_ rfl
  unfold said
  split_ifs <;> simp_all

theorem view_receive_tburst {z : TopicSite} (hts : z.channelts = x.mergedTs chname y)
    (htime : z.topicTime = x.topicTime) (hview : z.view = x.view) (h : y.topicTime ≠ 0) :
    (z.receive chname (.tburst (y.tburstStart chname ++ y.sentText chname))).view =
      x.viewAfter chname y := by
  have haccept : z.acceptRemote y.sentTs y.sentTime = true ↔ x.Takes chname y := by
    simp [acceptRemote, Takes, h, hts, htime]
  rw [view_receive_said, viewAfter, hview, htime]
  exact if_congr haccept rfl rfl

/-- What a server has once it has read all of the other's burst. -/
theorem view_settled : ((y.burst chname).foldl (fun x m => receive chname m x) x).view =
    x.viewAfter chname y := by
  obtain ⟨mode, hsjoin⟩ := foldl_sjoin chname x y y.nicks
  rw [burst, List.foldl_append, hsjoin, sendTb_eq]
  by_cases htime : y.topicTime = 0
  · have htakes : ¬x.Takes chname y := fun h => h.1 htime
    rw [if_neg (not_not.mpr htime), viewAfter, if_neg htakes]
    rfl
  · rw [if_pos htime]
    exact view_receive_tburst chname x y rfl rfl rfl htime

theorem said_of_isWord {t : Topic} (ht : y.topic = some t) (hword : IsWord t.info.val) :
    y.said chname = if y.sentText chname = [] then none
      else some ⟨Buf.strlcpy (y.sentText chname), t.info⟩ := by
  have hinfo : y.info = t.info.val := by rw [info, ht]; rfl
  have hparams : y.sentParams chname = [t.info.val, y.sentText chname] := by
    rw [sentParams, hinfo, splitArgs_word hword, splitArgs_colon]
  have hstrlcpy : (Buf.strlcpy t.info.val : Buf USERHOST_REPLYLEN) = t.info :=
    Buf.strlcpy_val t.info
  rw [said, hparams]
  simp only [topicParams, hstrlcpy]

theorem isWord_of_said {t : Topic} (h : y.said chname = some t) : IsWord t.info.val := by
  unfold said at h
  split at h
  · cases h
  · rename_i hne
    obtain ⟨setby, topic, hparams⟩ : ∃ setby topic, y.sentParams chname = [setby, topic] := by
      unfold topicParams at hne
      split at hne
      · rename_i setby topic heq
        exact ⟨setby, topic, heq⟩
      · exact absurd rfl hne
    have hword : IsWord setby := isWord_of_mem_dropLast (n := 10)
      (p := y.info ++ ' ' :: ':' :: y.sentText chname) (by
        rw [← sentParams, hparams]
        exact List.mem_singleton_self _)
    rw [← Option.some.inj h, hparams]
    obtain ⟨c, rest, rfl, hb, hc⟩ := hword.exists_cons
    exact ⟨by simp [Buf.strlcpy, topicParams],
      fun hm => hword.blank (List.mem_of_mem_take hm), by simp [Buf.strlcpy, topicParams, hc]⟩

theorem deliversTopic_iff : (y.topic = y.said chname ∧
    y.topicTime = if (y.said chname).isSome then y.sentTime else x.topicTime) ↔
      x.Delivers chname y := by
  unfold Delivers
  cases ht : y.topic with
  | none =>
      have hsaid : y.said chname = none := by
        have htext : y.sentText chname = [] := by simp [sentText, text, ht]
        have hinfo : y.info = [] := by rw [info, ht]; rfl
        have hparams : y.sentParams chname = [[]] := by
          rw [sentParams, htext, hinfo]
          rfl
        rw [said, hparams]
        rfl
      simp [hsaid, eq_comm]
  | some t =>
      have htext : y.text = t.text.val := by rw [text, ht]; rfl
      have hlen := y.length_tburstStart_le chname
      constructor
      · rintro ⟨hsaid, htime⟩
        have hword := isWord_of_said chname y hsaid.symm
        rw [said_of_isWord chname y ht hword] at hsaid htime
        by_cases hempty : y.sentText chname = []
        · rw [if_pos hempty] at hsaid
          cases hsaid
        rw [if_neg hempty] at hsaid htime
        have hval : t.text.val = (y.sentText chname).take TOPICLEN :=
          congrArg (fun t => t.text.val) (Option.some.inj hsaid)
        have hlength := congrArg List.length hval
        simp only [sentText, htext, List.length_take] at hlength
        have hne : t.text.val ≠ [] := fun h => hempty (by rw [sentText, htext, h, List.take_nil])
        have hpos := List.length_pos_iff.mpr hne
        refine ⟨hne, hword, ?_, NetClient.atol_formatULong_eq_iff.mp htime.symm⟩
        rw [List.length_append]
        omega
      · rintro ⟨hne, hword, hfits, htime⟩
        have hsent : y.sentText chname = t.text.val := by
          rw [List.length_append] at hfits
          rw [sentText, htext, List.take_of_length_le (by omega)]
        rw [said_of_isWord chname y ht hword, hsent, if_neg hne, Buf.strlcpy_val]
        exact ⟨rfl, (NetClient.atol_formatULong_eq_iff.mpr htime).symm⟩

/-- The condition for the topics to agree: neither takes the other's and they agree already, or one
takes the other's and its line delivers it, or both do and their lines say the same. -/
def Agreeable : Prop :=
  if x.Takes chname y then
    if y.Takes chname x then x.Swapped chname y else x.Delivers chname y
  else
    if y.Takes chname x then y.Delivers chname x else x.view = y.view

instance : Decidable (x.Agreeable chname y) := by
  unfold Agreeable
  infer_instance

theorem viewAfter_eq_iff : x.viewAfter chname y = y.viewAfter chname x ↔ x.Agreeable chname y := by
  unfold Agreeable viewAfter
  by_cases hx : x.Takes chname y <;> by_cases hy : y.Takes chname x
  · simp only [hx, hy, if_true, Prod.mk.injEq, Swapped]
    constructor
    · rintro ⟨hsaid, htime⟩
      rw [hsaid] at htime ⊢
      refine ⟨rfl, ?_⟩
      split_ifs at htime ⊢
      exacts [htime.symm, htime]
    · rintro ⟨hsaid, htime⟩
      rw [hsaid] at htime ⊢
      refine ⟨rfl, ?_⟩
      split_ifs at htime ⊢
      exacts [htime.symm, htime]
  · simp only [hx, hy, if_true, if_false, ← deliversTopic_iff, view, Prod.mk.injEq]
    exact and_congr eq_comm eq_comm
  · simp only [hx, hy, if_true, if_false, ← deliversTopic_iff, view, Prod.mk.injEq]
  · simp only [hx, hy, if_false]

end Verdict

end TopicSite

section Example

def topicSite (name : String) (h : name.toList.length < HOSTLEN + 1 ∧ ' ' ∉ name.toList)
    (channelts : ℤ) (topic : String) (topicTime : ℤ) : TopicSite where
  name := ⟨⟨name.toList, h.1⟩, h.2⟩
  ignoreBogusTs := false
  hideServers := false
  channelts := channelts
  mode := Mode.zero
  topic := some ⟨Buf.strlcpy topic.toList, Buf.strlcpy "ada!a@b.c".toList⟩
  topicTime := topicTime
  nicks := ["@ada".toList]

def topicChannel : GlobalName := ⟨"#c".toList, by decide⟩

def olderSite : TopicSite := topicSite "a.net" (by decide) 900000005 "x" 10

def newerSite : TopicSite := topicSite "b.net" (by decide) 900000007 "y" 20

/-- A topic set later in the channel of `olderSite`. -/
def laterSite : TopicSite := topicSite "b.net" (by decide) 900000005 "y" 20

end Example

end Unirc
