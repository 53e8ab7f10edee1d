import Unirc.TopicAgreement

/-!
# The relay of topics

`ms_tburst` and `ms_tb` send on what they take, as a TBURST to servers that know it and as a TB to
those that know only this. The server behind reads the line that is left of `send_format`.
-/

namespace Unirc

theorem splitArgs_take_word {w : Str} (h : IsWord w) (n j : ℕ) (rest : Str) :
    splitArgs (n + 1) ((w ++ ' ' :: rest).take j) =
      if j = 0 then []
      else if j ≤ w.length then [w.take j]
      else w :: splitArgs n (rest.take (j - w.length - 1)) := by
  split
  · rename_i hj
    rw [hj, List.take_zero, splitArgs_nil]
  · rename_i hj
    rw [List.take_append]
    split
    · rename_i hle
      rw [Nat.sub_eq_zero_of_le hle, List.take_zero, List.append_nil,
        splitArgs_last (h.take (Nat.pos_of_ne_zero hj))]
    · rename_i hlt
      obtain ⟨k, hk⟩ := Nat.exists_eq_add_of_lt (not_le.mp hlt)
      have hsub : j - w.length = k + 1 := by omega
      rw [List.take_of_length_le (not_le.mp hlt).le, hsub, List.take_succ_cons, splitArgs_word h,
        Nat.add_sub_cancel]

theorem splitLine_cut {sender command : Str} (hsender : ' ' ∉ sender) (hcommand : ' ' ∉ command)
    (hne : command ≠ []) {n : ℕ} (hn : sender.length + command.length + 3 ≤ n) (rest : Str) :
    splitLine ((':' :: (sender ++ ' ' :: (command ++ ' ' :: rest))).take n) =
      (command, stringToArray (rest.take (n - (sender.length + command.length + 3)))) := by
  have hline : ':' :: (sender ++ ' ' :: (command ++ ' ' :: rest)) =
      (':' :: (sender ++ ' ' :: (command ++ [' ']))) ++ rest := by simp
  have hlen : (':' :: (sender ++ ' ' :: (command ++ [' ']))).length =
      sender.length + command.length + 3 := by
    simp only [List.length_cons, List.length_append, List.length_nil]
    omega
  rw [hline, List.take_append, List.take_of_length_le (hlen.trans_le hn), hlen]
  have hread := splitLine_command hsender hcommand hne
    (rest.take (n - (sender.length + command.length + 3)))
  rw [← hread]
  simp

/-- Whether a server knows TBURST, or TB only. -/
inductive TopicCommand where
  | tburst | tb
  deriving DecidableEq

def TburstOut.relay (out : TburstOut) : TopicCommand → Option Str
  | .tburst => some out.tburst
  | .tb => out.tb

namespace TopicSite

variable (chname : GlobalName) (x : TopicSite)

/-- `":%s TB %s %lu %s :"` -/
def tbStart : Str :=
  ':' :: (x.name.val.val ++ ' ' :: ("TB".toList ++ ' ' :: (chname.val ++
    ' ' :: (formatULong x.topicTime ++ ' ' :: (x.info ++ [' ', ':'])))))

/-- `tb_topic` and `tb_whoset`, which is the source unless there are four parameters. -/
def tbParams (source : Str) : List Str → Str × Str
  | [whoset, topic] => (topic, whoset)
  | topic :: _ => (topic, source)
  | [] => ([], source)

/-- `ms_tb` with `set_topic`, for a message of a server called `source`. -/
def msTb (source : Str) : List Str → TopicSite × Option TburstOut
  | chan :: time :: rest =>
      if rest = [] ∨ irccmp chan chname.val then (x, none)
      else
        let (topic, topicwho) := tbParams source rest
        let y := x.setChannelTopic topic topicwho (Decimal.atol time)
        (y, some {
          notice :=
            if x.text ≠ topic then
              some (((':' :: (if x.hideServers then x.name.val.val else source)) ++
                ' ' :: List.intercalate [' '] ["TOPIC".toList, chname.val, ':' :: y.text]))
            else none
          tburst := y.tburstStart chname ++ y.text
          tb := some (y.tbStart chname ++ y.text) })
  | _ => (x, none)

/-- A TBURST or a TB of a server called `source`. -/
def handleTopic (command : TopicCommand) (source : Str) (parv : List Str) :
    TopicSite × Option TburstOut :=
  match command with
  | .tburst => x.msTburst chname source parv
  | .tb => x.msTb chname source parv

/-- A server that knows `command` reads what is relayed for it. -/
def afterRelay (command : TopicCommand) (out : Option TburstOut) : TopicSite :=
  match out.bind (·.relay command) with
  | none => x
  | some line =>
      let line := line.take (IRCD_BUFSIZE - 2)
      (x.handleTopic chname command (sender line) (splitLine line).2).1

/-- The line with these words and the topic, as it is sent. -/
def relayLine (source command : Str) (words : List Str) (topic : Str) : Str :=
  ((':' :: source) ++ ' ' :: List.intercalate [' '] (command :: words ++ [':' :: topic])).take
    (IRCD_BUFSIZE - 2)

/-- What is left of a relayed TBURST for the setter and the topic. -/
def tburstRoom (source ts chan time : Str) : ℕ :=
  IRCD_BUFSIZE - 2 - (source.length + ts.length + chan.length + time.length + 12)

section Tburst

variable {chname x} {source ts chan time setby topic : Str}

theorem splitArgs_take_three (hts : IsWord ts) (hchan : IsWord chan) (htime : IsWord time)
    (m j : ℕ) (rest : Str) :
    if j - (ts.length + chan.length + time.length + 3) = 0 then
      (splitArgs (m + 3) ((ts ++ ' ' :: (chan ++ ' ' :: (time ++ ' ' :: rest))).take j)).length ≤ 3
    else splitArgs (m + 3) ((ts ++ ' ' :: (chan ++ ' ' :: (time ++ ' ' :: rest))).take j) =
      ts :: chan :: time ::
        splitArgs m (rest.take (j - (ts.length + chan.length + time.length + 3))) := by
  rw [splitArgs_take_word hts, splitArgs_take_word hchan, splitArgs_take_word htime]
  split
  · rename_i hcut
    split_ifs
    iterate 6 simp
    have hnil : j - ts.length - 1 - chan.length - 1 - time.length - 1 = 0 := by omega
    rw [hnil, List.take_zero, splitArgs_nil]
    exact le_rfl
  · rename_i hleft
    have hsub : j - ts.length - 1 - chan.length - 1 - time.length - 1 =
        j - (ts.length + chan.length + time.length + 3) := by omega
    rw [if_neg (by omega), if_neg (by omega), if_neg (by omega), if_neg (by omega),
      if_neg (by omega), if_neg (by omega), hsub]

/-- The text that is read of a setter and a topic in the last `n` bytes of a line. -/
theorem splitArgs_take_setter (hsetby : IsWord setby) (topic : Str) {n : ℕ} (hn : n ≠ 0) :
    splitArgs 10 ((setby ++ ' ' :: ':' :: topic).take n) =
      if n < setby.length + 2 then [setby.take n] else [setby, topic.take (n - setby.length - 2)] := by
  rw [splitArgs_take_word hsetby, if_neg hn]
  split
  · rename_i hle
    rw [if_pos (Nat.lt_of_le_of_lt hle (Nat.lt_add_of_pos_right Nat.two_pos))]
  · rename_i hlt
    split
    · rename_i hshort
      have hnil : n - setby.length - 1 = 0 := by omega
      rw [hnil, List.take_zero, splitArgs_nil, List.take_of_length_le (not_le.mp hlt).le]
    · rename_i hlong
      have hsucc : n - setby.length - 1 = n - setby.length - 2 + 1 := by omega
      rw [hsucc, List.take_succ_cons, splitArgs_colon]

/-- What is read of a TBURST without a setter and a topic. -/
theorem splitArgs_take_unset (n : ℕ) :
    splitArgs 10 ((([] : Str) ++ ' ' :: ':' :: []).take n) = if n < 2 then [] else [[]] := by
  split
  · rename_i hn
    match n, hn with
    | 0, _ | 1, _ => rfl
  · rename_i hn
    obtain ⟨k, rfl⟩ := Nat.exists_eq_add_of_le (not_lt.mp hn)
    rw [Nat.add_comm, List.take_of_length_le (by simp)]
    rfl

/-- The words of a relayed TBURST: the setter and the topic are read in what is left of it. -/
theorem splitLine_relayed (hsource : ' ' ∉ source) (hlen : source.length ≤ HOSTLEN)
    (hts : IsWord ts) (hchan : IsWord chan) (htime : IsWord time) (setby topic : Str) :
    if tburstRoom source ts chan time = 0 then
      (splitLine (relayLine source "TBURST".toList [ts, chan, time, setby] topic)).2.length ≤ 3
    else (splitLine (relayLine source "TBURST".toList [ts, chan, time, setby] topic)).2 =
      ts :: chan :: time :: splitArgs 10
        ((setby ++ ' ' :: ':' :: topic).take (tburstRoom source ts chan time)) := by
  have hline : relayLine source "TBURST".toList [ts, chan, time, setby] topic =
      (':' :: (source ++ ' ' :: ("TBURST".toList ++ ' ' :: (ts ++ ' ' :: (chan ++
        ' ' :: (time ++ ' ' :: (setby ++ ' ' :: ':' :: topic))))))).take (IRCD_BUFSIZE - 2) := by
    simp [relayLine, List.intercalate, List.intersperse]
  have htburst : "TBURST".toList.length = 6 := rfl
  have hroom : source.length + "TBURST".toList.length + 3 ≤ IRCD_BUFSIZE - 2 := by
    rw [htburst]
    exact (Nat.add_le_add_right (Nat.add_le_add_right hlen _) _).trans (by decide)
  have hleft : IRCD_BUFSIZE - 2 - (source.length + "TBURST".toList.length + 3) -
      (ts.length + chan.length + time.length + 3) = tburstRoom source ts chan time := by
    rw [htburst, tburstRoom]
    omega
  rw [hline, splitLine_cut hsource (by decide) (by decide) hroom, stringToArray, ← hleft]
  exact splitArgs_take_three hts hchan htime ..

/-- The site has the topic already. -/
def HasTopic (topic setby : Str) (time : ℤ) : Prop :=
  if topic = [] then x.topic = none
  else x.topic = some ⟨Buf.strlcpy topic, Buf.strlcpy setby⟩ ∧ x.topicTime = time

theorem hasTopic_iff {time : ℤ} : x.HasTopic topic setby time ↔
    x.view = (x.setChannelTopic topic setby time).view := by
  rw [view_setChannelTopic, HasTopic, view, Prod.mk.injEq]
  split <;> simp

/-- A TBURST that is taken is relayed to servers with TBURST as it was, with the topic as far as it
is kept. -/
def TburstFits (room : ℕ) (topic setby : Str) : Prop :=
  topic = [] ∨ setby.length + 2 + min topic.length TOPICLEN ≤ room

/-- When a server that knows `cap` is left with the topic of this one after a TBURST. -/
def TburstRelays (chname : GlobalName) (x : TopicSite) (cap : TopicCommand) (source : Str) :
    List Str → Prop
  | ts :: chan :: time :: rest =>
      let p := topicParams rest
      let room := tburstRoom source ts chan time
      rest = [] ∨ irccmp chan chname.val = true ∨
        x.acceptRemote (Decimal.atol ts) (Decimal.atol time) = false ∨
          if cap = .tburst ∧ (if p.2 = [] then 1 else 0) < room then TburstFits room p.1 p.2
          else x.HasTopic p.1 p.2 (Decimal.atol time)
  | _ => True

theorem irccmp_globalName_of_head {s : Str} (h : s.head? ≠ some '#') :
    irccmp s chname.val = true := by
  obtain ⟨name, hname, hcheck⟩ := chname
  by_contra hcmp
  have heq := congrArg List.head? ((irccmp_eq_false_iff_lower _ _).mp (Bool.eq_false_iff.mpr hcmp))
  rw [List.head?_map, List.head?_map, hname] at heq
  obtain ⟨c, hc, hlower⟩ := Option.map_eq_some_iff.mp heq
  have hnat := congrArg Char.toNat hlower
  have hhash : (toLower '#').toNat = 35 := by decide
  rw [toNat_toLower, hhash] at hnat
  have hc35 : c.toNat = '#'.toNat := by
    change c.toNat = 35
    split_ifs at hnat <;> omega
  exact h (hc.trans (congrArg some (Char.toNat_inj.mp hc35)))

theorem msTburst_of_short {words : List Str} (h : words.length ≤ 3) :
    (x.msTburst chname source words).1 = x := by
  match words, h with
  | [], _ | [_], _ | [_, _], _ => rfl
  | [_, _, _], _ => simp [msTburst]

theorem msTburst_of_ne {rest : List Str} (hne : rest ≠ []) (hchan : irccmp chan chname.val = false) :
    (x.msTburst chname source (ts :: chan :: time :: rest)).1 =
      if x.acceptRemote (Decimal.atol ts) (Decimal.atol time) then
        x.setChannelTopic (topicParams rest).1 (topicParams rest).2 (Decimal.atol time)
      else x := by
  simp only [msTburst, hne, hchan, Bool.false_eq_true, or_self, if_false]

/-- A topic that is cut is the one that was sent if what is kept of it is there. -/
theorem view_setChannelTopic_take_iff {z : TopicSite} (htopic : topic ≠ []) (n : ℕ) (t : ℤ) :
    (z.setChannelTopic (topic.take n) setby t).view = (x.setChannelTopic topic setby t).view ↔
      min topic.length TOPICLEN ≤ n := by
  rw [view_setChannelTopic, view_setChannelTopic, if_neg htopic, if_neg htopic, Prod.mk.injEq]
  have hpos := List.length_pos_iff.mpr htopic
  constructor
  · rintro ⟨htext, -⟩
    split at htext
    · cases htext
    · have hval := congrArg (fun t => t.text.val.length) (Option.some.inj htext)
      simp only [Buf.strlcpy, List.length_take] at hval
      omega
  · intro hle
    have hmin : 0 < min topic.length TOPICLEN := lt_min hpos (by decide)
    have hne : topic.take n ≠ [] := by
      rw [Ne, List.take_eq_nil_iff, not_or]
      exact ⟨by omega, htopic⟩
    rw [if_neg hne, if_neg hne]
    refine ⟨?_, rfl⟩
    have hkeep : (Buf.strlcpy (topic.take n) : Buf (TOPICLEN + 1)) = Buf.strlcpy topic := by
      refine Subtype.ext ?_
      change (topic.take n).take TOPICLEN = topic.take TOPICLEN
      rw [List.take_take]
      rcases Nat.lt_or_ge n TOPICLEN with h | h
      · have hall : topic.length ≤ n := by
          by_contra hlt
          exact absurd hle (not_le.mpr (lt_min (not_le.mp hlt) h))
        rw [min_eq_right h.le, List.take_of_length_le hall,
          List.take_of_length_le (hall.trans h.le)]
      · rw [min_eq_left h]
    rw [hkeep]

theorem topicParams_cases {rest : List Str} (hwords : ∀ w ∈ rest.dropLast, IsWord w) :
    topicParams rest = ([], []) ∨ IsWord (topicParams rest).2 := by
  unfold topicParams
  split
  · exact Or.inr (hwords _ (List.mem_singleton_self _))
  · exact Or.inl rfl

/-- A server that knows TBURST reads a TBURST that was taken. -/
theorem afterTburst_iff {z : TopicSite} (hts : z.channelts = x.channelts) (hview : z.view = x.view)
    (hsource : ' ' ∉ source) (hlen : source.length ≤ HOSTLEN) (hwts : IsWord ts)
    (hwchan : IsWord chan) (hwtime : IsWord time) (hchan : irccmp chan chname.val = false)
    (hsetby : setby = [] ∧ topic = [] ∨ IsWord setby) (s : Str)
    (haccept : x.acceptRemote (Decimal.atol ts) (Decimal.atol time) = true) :
    (z.msTburst chname s (splitLine (relayLine source "TBURST".toList [ts, chan, time, setby]
        topic)).2).1.view = (x.setChannelTopic topic setby (Decimal.atol time)).view ↔
      if (if setby = [] then 1 else 0) < tburstRoom source ts chan time then
        TburstFits (tburstRoom source ts chan time) topic setby
      else x.HasTopic topic setby (Decimal.atol time) := by
  have htime : z.topicTime = x.topicTime := congrArg Prod.snd hview
  have hz : z.acceptRemote (Decimal.atol ts) (Decimal.atol time) = true := by
    rw [← haccept, acceptRemote, acceptRemote, hts, htime]
  have hread := splitLine_relayed hsource hlen hwts hwchan hwtime setby topic
  have hsame {words : List Str} (hz : (z.msTburst chname s words).1 = z) :
      (z.msTburst chname s words).1.view =
        (x.setChannelTopic topic setby (Decimal.atol time)).view ↔
          x.HasTopic topic setby (Decimal.atol time) := by
    rw [hz, hview, hasTopic_iff]
  split at hread
  · rename_i hroom
    rw [hroom, if_neg (Nat.not_lt_zero _)]
    exact hsame (msTburst_of_short hread)
  rename_i hroom
  rw [hread]
  rcases hsetby with ⟨rfl, rfl⟩ | hsetby
  · rw [splitArgs_take_unset, if_pos rfl]
    split
    · rename_i hshort
      rw [if_neg (by omega)]
      exact hsame (msTburst_of_short le_rfl)
    · rename_i hlong
      rw [if_pos (by omega), msTburst_of_ne (List.cons_ne_nil _ _) hchan, if_pos hz]
      refine iff_of_true ?_ (Or.inl rfl)
      rw [view_setChannelTopic, view_setChannelTopic, htime]
      rfl
  · rw [splitArgs_take_setter hsetby topic hroom, if_neg hsetby.ne_nil,
      if_pos (Nat.pos_of_ne_zero hroom), TburstFits]
    have hunset : (z.setChannelTopic [] [] (Decimal.atol time)).view = (none, x.topicTime) := by
      rw [view_setChannelTopic, if_pos rfl, if_pos rfl, htime]
    by_cases htopic : topic = []
    · subst htopic
      rw [List.take_nil]
      refine iff_of_true ?_ (Or.inl rfl)
      split <;> rw [msTburst_of_ne (List.cons_ne_nil _ _) hchan, if_pos hz] <;>
        exact hunset.trans (by rw [view_setChannelTopic, if_pos rfl, if_pos rfl])
    · rw [or_iff_right htopic]
      have hpos : 0 < min topic.length TOPICLEN :=
        lt_min (List.length_pos_iff.mpr htopic) (by decide)
      split
      · rw [msTburst_of_ne (List.cons_ne_nil _ _) hchan, if_pos hz]
        refine iff_of_false (fun h => ?_) (by omega)
        have hnone := congrArg Prod.fst (hunset.symm.trans h)
        rw [view_setChannelTopic, if_neg htopic] at hnone
        cases hnone
      · rw [msTburst_of_ne (List.cons_ne_nil _ _) hchan, if_pos hz]
        refine (view_setChannelTopic_take_iff htopic _ _).trans ?_
        omega

/-- A TBURST that was not taken is not taken behind either. -/
theorem afterTburst_of_rejected {z : TopicSite} (hsource : ' ' ∉ source)
    (hlen : source.length ≤ HOSTLEN) (hwts : IsWord ts) (hwchan : IsWord chan)
    (hwtime : IsWord time) (hchan : irccmp chan chname.val = false) (setby topic s : Str)
    (hz : z.acceptRemote (Decimal.atol ts) (Decimal.atol time) = false) :
    (z.msTburst chname s (splitLine (relayLine source "TBURST".toList [ts, chan, time, setby]
        topic)).2).1 = z := by
  have hread := splitLine_relayed hsource hlen hwts hwchan hwtime setby topic
  split at hread
  · exact msTburst_of_short hread
  rw [hread]
  by_cases hne : splitArgs 10
      ((setby ++ ' ' :: ':' :: topic).take (tburstRoom source ts chan time)) = []
  · rw [hne]
    exact msTburst_of_short le_rfl
  · rw [msTburst_of_ne hne hchan, if_neg (Bool.eq_false_iff.mp hz)]

theorem msTb_of_other {words : List Str} (h : ∀ w ∈ words.head?, irccmp w chname.val = true) :
    (x.msTb chname source words).1 = x := by
  match words, h with
  | [], _ | [_], _ => rfl
  | chan :: time :: rest, h =>
      have hother := h chan rfl
      simp only [msTb, hother, or_true, if_true]

/-- The TB that is relayed for a TBURST names no channel. -/
theorem tb_relayed (hsource : ' ' ∉ source) (hlen : source.length ≤ HOSTLEN) (hwts : IsWord ts)
    (hts : ts.head? ≠ some '#') (chan setby topic s : Str) :
    (x.msTb chname s (splitLine (relayLine source "TB".toList [ts, chan, setby] topic)).2).1 =
      x := by
  have hline : relayLine source "TB".toList [ts, chan, setby] topic =
      (':' :: (source ++ ' ' :: ("TB".toList ++ ' ' :: (ts ++ ' ' :: (chan ++
        ' ' :: (setby ++ ' ' :: ':' :: topic)))))).take (IRCD_BUFSIZE - 2) := by
    simp [relayLine, List.intercalate, List.intersperse]
  have htb : "TB".toList.length = 2 := rfl
  have hroom : source.length + "TB".toList.length + 3 ≤ IRCD_BUFSIZE - 2 := by
    rw [htb]
    exact (Nat.add_le_add_right (Nat.add_le_add_right hlen _) _).trans (by decide)
  rw [hline, splitLine_cut hsource (by decide) (by decide) hroom, stringToArray,
    splitArgs_take_word hwts]
  refine msTb_of_other fun w hw => irccmp_globalName_of_head ?_
  split_ifs at hw with hnil
  · cases hw
  · obtain rfl := Option.some.inj hw
    rwa [List.head?_take, if_neg hnil]
  · exact Option.some.inj hw ▸ hts

theorem afterRelay_msTburst {z : TopicSite} {rest : List Str} (hne : rest ≠ [])
    (hchan : irccmp chan chname.val = false) : ∃ s,
      z.afterRelay chname .tburst (x.msTburst chname source (ts :: chan :: time :: rest)).2 =
        (z.msTburst chname s (splitLine (relayLine source "TBURST".toList
          [ts, chan, time, (topicParams rest).2] (topicParams rest).1)).2).1 := by
  refine ⟨sender (relayLine source "TBURST".toList [ts, chan, time, (topicParams rest).2]
    (topicParams rest).1), ?_⟩
  simp only [msTburst, hne, hchan, Bool.false_eq_true, or_self, if_false]
  rfl

theorem afterRelay_msTburst_tb {z : TopicSite} {rest : List Str} (hsource : ' ' ∉ source)
    (hlen : source.length ≤ HOSTLEN) (hwts : IsWord ts) (hstamp : ts.head? ≠ some '#')
    (hne : rest ≠ []) (hchan : irccmp chan chname.val = false) :
    z.afterRelay chname .tb (x.msTburst chname source (ts :: chan :: time :: rest)).2 = z := by
  simp only [msTburst, hne, hchan, Bool.false_eq_true, or_self, if_false, afterRelay,
    Option.bind_some, TburstOut.relay]
  split
  · rfl
  · rename_i line hline
    split at hline
    · obtain rfl := Option.some.inj hline
      exact tb_relayed hsource hlen hwts hstamp ..
    · cases hline

theorem afterTburst_relays_iff {z : TopicSite} {cap : TopicCommand} {rest : List Str}
    (hts : z.channelts = x.channelts) (hview : z.view = x.view) (hsource : IsWord source)
    (hlen : source.length ≤ HOSTLEN)
    (hwords : ∀ w ∈ (ts :: chan :: time :: rest).dropLast, IsWord w) (hstamp : ts.head? ≠ some '#') :
    (z.afterRelay chname cap (x.msTburst chname source (ts :: chan :: time :: rest)).2).view =
        (x.msTburst chname source (ts :: chan :: time :: rest)).1.view ↔
      TburstRelays chname x cap source (ts :: chan :: time :: rest) := by
  unfold TburstRelays
  by_cases hdrop : rest = [] ∨ irccmp chan chname.val = true
  · have hnone : x.msTburst chname source (ts :: chan :: time :: rest) = (x, none) := by
      simp only [msTburst, hdrop, if_true]
    rw [hnone]
    exact iff_of_true hview (hdrop.elim Or.inl fun h => Or.inr (Or.inl h))
  obtain ⟨hne, hcmp⟩ := not_or.mp hdrop
  have hchan : irccmp chan chname.val = false := Bool.eq_false_iff.mpr hcmp
  have hdropLast : (ts :: chan :: time :: rest).dropLast =
      ts :: chan :: time :: rest.dropLast := by
    rw [List.dropLast_cons_of_ne_nil (by simp), List.dropLast_cons_of_ne_nil (by simp),
      List.dropLast_cons_of_ne_nil hne]
  rw [hdropLast] at hwords
  have hwts := hwords ts (by simp)
  have hwchan := hwords chan (by simp)
  have hwtime := hwords time (by simp)
  refine Iff.trans ?_ ((or_iff_right hne).trans (or_iff_right hcmp)).symm
  rw [msTburst_of_ne hne hchan]
  have hsetby : (topicParams rest).2 = [] ∧ (topicParams rest).1 = [] ∨
      IsWord (topicParams rest).2 :=
    (topicParams_cases fun w hw => hwords w (by simp [hw])).imp_left fun h => by rw [h]; exact ⟨rfl, rfl⟩
  cases cap with
  | tburst =>
      obtain ⟨s, hrelay⟩ := @afterRelay_msTburst chname x source ts chan time z rest hne hchan
      rw [hrelay]
      cases haccept : x.acceptRemote (Decimal.atol ts) (Decimal.atol time) with
      | false =>
          have hz : z.acceptRemote (Decimal.atol ts) (Decimal.atol time) = false := by
            rw [← haccept, acceptRemote, acceptRemote, hts]
            rw [show z.topicTime = x.topicTime from congrArg Prod.snd hview]
          rw [afterTburst_of_rejected hsource.blank hlen hwts hwchan hwtime hchan _ _ _ hz]
          exact iff_of_true hview (Or.inl rfl)
      | true =>
          rw [or_iff_right Bool.false_ne_true.symm]
          refine (afterTburst_iff hts hview hsource.blank hlen hwts hwchan hwtime hchan hsetby s
            haccept).trans (iff_of_eq (if_congr (and_iff_right rfl).symm rfl rfl))
  | tb =>
      rw [afterRelay_msTburst_tb hsource.blank hlen hwts hstamp hne hchan, hview]
      cases haccept : x.acceptRemote (Decimal.atol ts) (Decimal.atol time) with
      | false => exact iff_of_true rfl (Or.inl rfl)
      | true =>
          have htb (p : Prop) : ¬(TopicCommand.tb = .tburst ∧ p) := fun h => by cases h.1
          rw [or_iff_right Bool.false_ne_true.symm, if_pos rfl]
          exact hasTopic_iff.symm.trans (iff_of_eq (if_neg (htb _)).symm)

end Tburst

section Tb

variable {chname x} {source chan time topic whoset : Str}

/-- When a server that knows `cap` is left with the topic of this one after a TB. -/
def TbRelays (chname : GlobalName) (x : TopicSite) (cap : TopicCommand) (source : Str) :
    List Str → Prop
  | chan :: time :: rest =>
      let p := tbParams source rest
      let y := x.setChannelTopic p.1 p.2 (Decimal.atol time)
      rest = [] ∨ irccmp chan chname.val = true ∨
        match cap with
        | .tburst =>
            if x.acceptRemote y.sentTs y.sentTime then x.Delivers chname y
            else x.HasTopic p.1 p.2 (Decimal.atol time)
        | .tb => p.1 = [] ∨ (y.tbStart chname ++ y.text).length ≤ IRCD_BUFSIZE - 2 ∧
            0 ≤ Decimal.atol time ∧ Decimal.atol time < 2 ^ 63
  | _ => True

theorem tbParams_cases {rest : List Str} (hwords : ∀ w ∈ rest.dropLast, IsWord w)
    (hsource : IsWord source) : IsWord (tbParams source rest).2 := by
  unfold tbParams
  split
  · exact hwords _ (List.mem_singleton_self _)
  · exact hsource
  · exact hsource

theorem afterTb_tburst_iff (chname : GlobalName) {y z : TopicSite} (hts : z.channelts = x.channelts)
    (hview : z.view = x.view) (hy : y = x.setChannelTopic topic whoset (Decimal.atol time)) :
    (z.msTburst chname (sender ((y.tburstStart chname ++ y.text).take (IRCD_BUFSIZE - 2)))
        (splitLine ((y.tburstStart chname ++ y.text).take (IRCD_BUFSIZE - 2))).2).1.view = y.view ↔
      if x.acceptRemote y.sentTs y.sentTime then x.Delivers chname y
      else x.HasTopic topic whoset (Decimal.atol time) := by
  have htime : z.topicTime = x.topicTime := congrArg Prod.snd hview
  have hline : (y.tburstStart chname ++ y.text).take (IRCD_BUFSIZE - 2) =
      y.tburstStart chname ++ y.sentText chname := by
    have hroom : (y.tburstStart chname).length ≤ IRCD_BUFSIZE - 2 :=
      (y.length_tburstStart_le chname).trans (by decide)
    rw [List.take_append, List.take_of_length_le hroom, sentText]
  have haccept : z.acceptRemote y.sentTs y.sentTime = x.acceptRemote y.sentTs y.sentTime := by
    rw [acceptRemote, acceptRemote, hts, htime]
  have hread := view_receive_said chname y z
  rw [haccept, htime] at hread
  rw [hline]
  change (z.receive chname (.tburst (y.tburstStart chname ++ y.sentText chname))).view = _ ↔ _
  rw [hread]
  split
  · rw [← deliversTopic_iff, view, Prod.mk.injEq]
    exact and_congr eq_comm eq_comm
  · rw [hview, hasTopic_iff, hy]

theorem length_tbStart_le (y : TopicSite) :
    (y.tbStart chname).length ≤ (y.tburstStart chname).length := by
  have htburst : "TBURST".toList.length = 6 := rfl
  have htb : "TB".toList.length = 2 := rfl
  simp only [tbStart, tburstStart, List.length_cons, List.length_append, htburst, htb]
  omega

/-- The words of a TB that `set_topic` relays. -/
theorem splitLine_tb (y : TopicSite) :
    (splitLine ((y.tbStart chname ++ y.text).take (IRCD_BUFSIZE - 2))).2 =
      chname.val :: formatULong y.topicTime :: splitArgs 11 (y.info ++ ' ' :: ':' ::
        y.text.take (IRCD_BUFSIZE - 2 - (y.tbStart chname).length)) := by
  have hroom : (y.tbStart chname).length ≤ IRCD_BUFSIZE - 2 :=
    ((length_tbStart_le y).trans (y.length_tburstStart_le chname)).trans (by decide)
  have hline : (y.tbStart chname ++ y.text).take (IRCD_BUFSIZE - 2) =
      ':' :: (y.name.val.val ++ ' ' :: ("TB".toList ++ ' ' :: (chname.val ++
        ' ' :: (formatULong y.topicTime ++ ' ' :: (y.info ++ ' ' :: ':' ::
          y.text.take (IRCD_BUFSIZE - 2 - (y.tbStart chname).length)))))) := by
    rw [List.take_append, List.take_of_length_le hroom]
    simp [tbStart]
  rw [hline, splitLine_command y.name.property (by decide) (by decide), stringToArray,
    splitArgs_word (isWord_globalName _), splitArgs_word (isWord_formatULong _)]

theorem msTb_of_ne {rest : List Str} (hne : rest ≠ []) (hchan : irccmp chan chname.val = false) :
    (x.msTb chname source (chan :: time :: rest)).1 =
      x.setChannelTopic (tbParams source rest).1 (tbParams source rest).2 (Decimal.atol time) := by
  simp only [msTb, hne, hchan, Bool.false_eq_true, or_self, if_false]

theorem afterTb_tb_iff (chname : GlobalName) {y z : TopicSite} (hview : z.view = x.view)
    (hwhoset : IsWord whoset) (hy : y = x.setChannelTopic topic whoset (Decimal.atol time)) (s : Str) :
    (z.msTb chname s (splitLine ((y.tbStart chname ++ y.text).take (IRCD_BUFSIZE - 2))).2).1.view =
        y.view ↔
      topic = [] ∨ (y.tbStart chname ++ y.text).length ≤ IRCD_BUFSIZE - 2 ∧
        0 ≤ Decimal.atol time ∧ Decimal.atol time < 2 ^ 63 := by
  have htime : z.topicTime = x.topicTime := congrArg Prod.snd hview
  have hcmp : irccmp chname.val chname.val = false := (irccmp_eq_false_iff _ _).mpr rfl
  rw [splitLine_tb]
  by_cases htopic : topic = []
  · have htext : y.text = [] := by simp [hy, htopic, setChannelTopic, text]
    have hinfo : y.info = [] := by simp [hy, htopic, setChannelTopic, info]
    refine iff_of_true ?_ (Or.inl htopic)
    rw [htext, hinfo, List.take_nil]
    change (z.msTb chname s [chname.val, formatULong y.topicTime, []]).1.view = _
    rw [msTb_of_ne (List.cons_ne_nil _ _) hcmp, hy, view_setChannelTopic, view_setChannelTopic,
      if_pos htopic, if_pos htopic, htime]
    rfl
  · have htext : y.text = (Buf.strlcpy topic : Buf (TOPICLEN + 1)).val := by
      simp [hy, htopic, setChannelTopic, text]
    have hinfo : y.info = (Buf.strlcpy whoset : Buf USERHOST_REPLYLEN).val := by
      simp [hy, htopic, setChannelTopic, info]
    have hwinfo : IsWord y.info := hinfo ▸ hwhoset.take (by decide)
    have hview_y : y.view = (some ⟨Buf.strlcpy y.text, Buf.strlcpy y.info⟩, Decimal.atol time) := by
      rw [htext, hinfo, Buf.strlcpy_val, Buf.strlcpy_val, hy, view_setChannelTopic, if_neg htopic,
        if_neg htopic]
    have htime_y : y.topicTime = Decimal.atol time := congrArg Prod.snd hview_y
    have hne : y.text ≠ [] := by
      rw [htext]
      exact fun h => htopic ((List.take_eq_nil_iff.mp h).resolve_left (by decide))
    have hroom : (y.tbStart chname).length ≤ IRCD_BUFSIZE - 2 :=
      ((length_tbStart_le y).trans (y.length_tburstStart_le chname)).trans (by decide)
    rw [splitArgs_word hwinfo, splitArgs_colon, msTb_of_ne (List.cons_ne_nil _ _) hcmp,
      or_iff_right htopic, List.length_append, hview_y, view_setChannelTopic, htime_y,
      ← NetClient.atol_formatULong_eq_iff]
    change ((if y.text.take _ = [] then none else some ⟨Buf.strlcpy (y.text.take _),
      Buf.strlcpy y.info⟩ : Option Topic), _) = _ ↔ _
    rw [Prod.mk.injEq]
    by_cases hfits : y.text.length ≤ IRCD_BUFSIZE - 2 - (y.tbStart chname).length
    · rw [List.take_of_length_le hfits, if_neg hne]
      refine and_congr (iff_of_true rfl (by omega)) ?_
      exact Eq.congr_left (if_neg hne)
    · refine iff_of_false (fun h => hfits ?_) (fun h => hfits (by omega))
      have hkeep := h.1
      split at hkeep
      · cases hkeep
      · have hval := congrArg (fun t => t.text.val.length) (Option.some.inj hkeep)
        have hlen : y.text.length ≤ TOPICLEN := by
          rw [htext]
          exact List.length_take_le ..
        simp only [Buf.strlcpy, List.length_take] at hval
        omega

theorem afterTb_relays_iff {z : TopicSite} {cap : TopicCommand} {rest : List Str}
    (hts : z.channelts = x.channelts) (hview : z.view = x.view) (hsource : IsWord source)
    (hwords : ∀ w ∈ (chan :: time :: rest).dropLast, IsWord w) :
    (z.afterRelay chname cap (x.msTb chname source (chan :: time :: rest)).2).view =
        (x.msTb chname source (chan :: time :: rest)).1.view ↔
      TbRelays chname x cap source (chan :: time :: rest) := by
  unfold TbRelays
  by_cases hdrop : rest = [] ∨ irccmp chan chname.val = true
  · have hnone : x.msTb chname source (chan :: time :: rest) = (x, none) := by
      simp only [msTb, hdrop, if_true]
    rw [hnone]
    exact iff_of_true hview (hdrop.elim Or.inl fun h => Or.inr (Or.inl h))
  obtain ⟨hne, hcmp⟩ := not_or.mp hdrop
  have hchan : irccmp chan chname.val = false := Bool.eq_false_iff.mpr hcmp
  have hdropLast : (chan :: time :: rest).dropLast = chan :: time :: rest.dropLast := by
    rw [List.dropLast_cons_of_ne_nil (by simp), List.dropLast_cons_of_ne_nil hne]
  rw [hdropLast] at hwords
  have hwhoset : IsWord (tbParams source rest).2 :=
    tbParams_cases (fun w hw => hwords w (by simp [hw])) hsource
  refine Iff.trans ?_ ((or_iff_right hne).trans (or_iff_right hcmp)).symm
  rw [msTb_of_ne hne hchan]
  cases cap with
  | tburst =>
      refine Iff.trans ?_ (afterTb_tburst_iff chname hts hview
        (rfl : x.setChannelTopic (tbParams source rest).1 (tbParams source rest).2
          (Decimal.atol time) = _))
      simp only [msTb, hne, hchan, Bool.false_eq_true, or_self, if_false]
      rfl
  | tb =>
      let y := x.setChannelTopic (tbParams source rest).1 (tbParams source rest).2
        (Decimal.atol time)
      refine Iff.trans ?_ (afterTb_tb_iff chname hview hwhoset (rfl : y = _)
        (sender ((y.tbStart chname ++ y.text).take (IRCD_BUFSIZE - 2))))
      simp only [msTb, hne, hchan, Bool.false_eq_true, or_self, if_false]
      rfl

end Tb

/-- A server that knows `cap` is left with the topic of this one after a message. -/
def Relays (command cap : TopicCommand) (source : Str) (parv : List Str) : Prop :=
  match command with
  | .tburst => x.TburstRelays chname cap source parv
  | .tb => x.TbRelays chname cap source parv

end TopicSite

open TopicSite in
/-- A server behind has the topic, the setter and the topic time of this one after it has read what
is relayed for it, exactly when the message relays. -/
theorem topics_relay_iff (chname : GlobalName) (x z : TopicSite) (command cap : TopicCommand)
    (source : Buf (HOSTLEN + 1)) (line : Str) (hts : z.channelts = x.channelts)
    (hview : z.view = x.view) (hsource : IsWord source.val)
    (hstamp : command = .tburst → ∀ ts ∈ (splitLine line).2.head?, ts.head? ≠ some '#') :
    (z.afterRelay chname cap (x.handleTopic chname command source.val (splitLine line).2).2).view =
        (x.handleTopic chname command source.val (splitLine line).2).1.view ↔
      x.Relays chname command cap source.val (splitLine line).2 := by
  have hlen : source.val.length ≤ HOSTLEN := Nat.le_of_lt_succ source.property
  have hwords : ∀ w ∈ (splitLine line).2.dropLast, IsWord w := fun w hw => isWord_of_mem_dropLast hw
  generalize (splitLine line).2 = parv at hwords hstamp ⊢
  cases command with
  | tburst =>
      match parv, hwords, hstamp with
      | [], _, _ | [_], _, _ | [_, _], _, _ => exact iff_of_true hview trivial
      | ts :: chan :: time :: rest, hwords, hstamp =>
          exact afterTburst_relays_iff hts hview hsource hlen hwords (hstamp rfl ts rfl)
  | tb =>
      match parv, hwords with
      | [], _ | [_], _ => exact iff_of_true hview trivial
      | chan :: time :: rest, hwords => exact afterTb_relays_iff hts hview hsource hwords

section Example

/-- A server behind `olderSite` that agrees with it. -/
def behindSite : TopicSite := topicSite "c.net" (by decide) 900000005 "x" 10

def tburstLine : Str := ":b.net TBURST 900000005 #c 20 ada!a@b.c :y".toList

open TopicSite in
theorem topics_relay_iff_behindSite :
    (behindSite.afterRelay topicChannel .tburst (olderSite.handleTopic topicChannel .tburst
        "b.net".toList (splitLine tburstLine).2).2).view =
      (olderSite.handleTopic topicChannel .tburst "b.net".toList (splitLine tburstLine).2).1.view ↔
      olderSite.Relays topicChannel .tburst .tburst "b.net".toList (splitLine tburstLine).2 :=
  topics_relay_iff topicChannel olderSite behindSite .tburst .tburst
    ⟨"b.net".toList, by decide⟩ tburstLine rfl rfl (by decide) (by decide)

open TopicSite in
/-- The TB that is made of a TBURST names the timestamp in place of the channel. -/
theorem not_topics_relay : ¬ ∀ (chname : GlobalName) (x z : TopicSite)
    (command cap : TopicCommand) (source : Buf (HOSTLEN + 1)) (line : Str),
    z.channelts = x.channelts → z.view = x.view → IsWord source.val →
    (command = .tburst → ∀ ts ∈ (splitLine line).2.head?, ts.head? ≠ some '#') →
    (z.afterRelay chname cap (x.handleTopic chname command source.val (splitLine line).2).2).view =
      (x.handleTopic chname command source.val (splitLine line).2).1.view := by
  intro h
  have hview := h topicChannel olderSite behindSite .tburst .tb ⟨"b.net".toList, by decide⟩
    tburstLine rfl rfl (by decide) (by decide)
  exact absurd hview (by decide +kernel)

end Example

end Unirc
