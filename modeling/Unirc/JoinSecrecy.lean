import Unirc.ServerRun

/-!
# What the MODE lines of a remote JOIN depend on

The lines that `ms_join` sends for a channel are a function of the channel, the
source, the parameters and the buffers that earlier calls have left. Two runs
that agree on the channel may differ in the buffers.
-/

namespace Unirc

namespace Server

variable (cfg : Config) (s : Server)

/-- A run of the server with the buffers of the module: a JOIN finds them as the
JOIN before it has left them. -/
def stepBuffers (x : Server × JoinBuffers) : Event → Server × JoinBuffers
  | .remoteJoin now _ a parv =>
      let (s, b, _) := x.1.msJoin cfg now x.2 a parv
      (s, b)
  | e => (x.1.step cfg e, x.2)

def runBuffers (events : List Event) : Server × JoinBuffers :=
  events.foldl (stepBuffers cfg) (init, JoinBuffers.init)

/-- The lines that `ms_join` sends for a JOIN after a run. -/
def joinLinesAfter (events : List Event) (now : ℤ) (a : ℕ) (parv : List Str) :
    List ModeMessage :=
  let (s, b) := runBuffers cfg events
  (s.msJoin cfg now b a parv).2.2

/-- The state of the channel of a name: its record and its members. -/
def channelView (name : Str) : Option (Channel × List (MemberFlags × Str)) :=
  (s.hashFindChannel name).bind fun c => (s.channel? c).map fun ch => (ch, s.roster c)

/-- What the lines show of the source. -/
def sourceView (a : ℕ) : Option (Str × Bool) :=
  (s.client? a).map fun who => (who.name.val, who.hidden)

/-- The timestamps and the mode after a JOIN for an existing channel. -/
def joinVerdict (newts : ℤ) (ch : Channel) : TsVerdict :=
  tsVerdict false (checkBogusTs cfg.ignoreBogusTs newts ch.channelts) ch.channelts

/-- The lines, as a function of the views and the buffers. -/
def joinLines (b : JoinBuffers) (source : Option (Str × Bool)) (parv : List Str)
    (view : Option (Channel × List (MemberFlags × Str))) : List ModeMessage :=
  match source, parv, view with
  | some (name, hidden), ts :: chname :: _ :: _, some (ch, roster) =>
      if chname.head? = some '&' ∨ checkChannelName false chname false = false then []
      else
        let v := joinVerdict cfg (Decimal.atol ts) ch
        let b := b.final (Join.setFinalMode (v.merge Mode.zero ch.mode) ch.mode)
        let texts := (if v.keepOurModes then [] else (removalTexts roster []).1) ++
          if b.modebuf = [] then [] else [b.modebuf ++ ' ' :: b.parabuf]
        texts.map (ModeMessage.mk (if cfg.hideServers || hidden then cfg.meName else name)
          ch.chname.val)
  | _, _, _ => []

/-- Two states agree on the source of a JOIN and on its channel. -/
structure SameForJoin (s s' : Server) (a a' : ℕ) (name : Str) : Prop where
  source : s.sourceView a = s'.sourceView a'
  channel : s.channelView name = s'.channelView name

/-- The lines sent for a JOIN after a run are those of every run that agrees with it on
the JOIN and its channel. -/
def JoinSecret (events : List Event) (a : ℕ) (parv : List Str) : Prop :=
  ∀ (events' : List Event) (now now' : ℤ) (a' : ℕ),
    SameForJoin (runBuffers cfg events).1 (runBuffers cfg events').1 a a' (parv.getD 1 []) →
      joinLinesAfter cfg events now a parv = joinLinesAfter cfg events' now' a' parv

/-- The JOIN does not win over the channel's timestamp, or the channel has a key or
a forward channel, or it has no mode that is shown. -/
def ParamWritten (newts : ℤ) (ch : Channel) : Prop :=
  (joinVerdict cfg newts ch).keepOurModes = true ∨ ch.mode.key.val ≠ [] ∨
    ch.mode.forward.val ≠ [] ∨
      (letters finalFlags ch.mode.mode = [] ∧ ch.mode.limit = 0 ∧
        (ch.mode.msgs = 0 ∨ ch.mode.per = 0))

/-- A JOIN that `ms_join` accepts for an existing channel does not print a parameter
text that it has not written. -/
def JoinSafe (source : Option (Str × Bool)) (parv : List Str)
    (view : Option (Channel × List (MemberFlags × Str))) : Prop :=
  match source, parv, view with
  | some _, ts :: chname :: _ :: _, some (ch, _) =>
      (chname.head? = some '&' ∨ checkChannelName false chname false = false) ∨
        ParamWritten cfg (Decimal.atol ts) ch
  | _, _, _ => True

variable {cfg s}

theorem roster_updChannel (c : ℕ) (f : Channel → Channel) (d : ℕ) :
    (s.updChannel c f).roster d = s.roster d := by
  have h : (s.updChannel c f).members d = s.members d := by
    rw [members, (Relabels.updChannel s c f).shape.listed, members]
  rw [roster, h]
  rfl

theorem msJoinMerge_lines {b : JoinBuffers} {a : ℕ} {source : Client} {newts : ℤ} {c : ℕ}
    {ch : Channel} : (s.msJoinMerge cfg b a source newts false c ch).2.2 =
      let v := joinVerdict cfg newts ch
      let b := b.final (Join.setFinalMode (v.merge Mode.zero ch.mode) ch.mode)
      let texts := (if v.keepOurModes then [] else (removalTexts (s.roster c) []).1) ++
        if b.modebuf = [] then [] else [b.modebuf ++ ' ' :: b.parabuf]
      texts.map (ModeMessage.mk (if cfg.hideServers || source.hidden then cfg.meName
        else source.name.val) ch.chname.val) := by
  unfold msJoinMerge
  simp only [joinVerdict, roster_updChannel]
  rcases Bool.eq_false_or_eq_true (tsVerdict false (checkBogusTs cfg.ignoreBogusTs newts
    ch.channelts) ch.channelts).keepOurModes with hk | hk
  · simp only [hk, if_true]
    rfl
  · simp only [hk, Bool.false_eq_true, if_false]
    rfl

/-- For a new channel no line is sent. -/
theorem msJoinMerge_lines_new {b : JoinBuffers} {a : ℕ} {source : Client} {newts : ℤ} {c : ℕ}
    {ch : Channel} (hch : ch.mode = Mode.zero) :
    (s.msJoinMerge cfg b a source newts true c ch).2.2 = [] := by
  have hfinal : Join.setFinalMode (Mode.zero.joinSame Mode.zero) Mode.zero = ⟨[], []⟩ := by
    decide
  unfold msJoinMerge
  simp [tsVerdict, TsVerdict.merge, hch, hfinal, JoinBuffers.final]

theorem msJoin_lines (now : ℤ) (b : JoinBuffers) (a : ℕ) (parv : List Str) :
    (s.msJoin cfg now b a parv).2.2 =
      joinLines cfg b (s.sourceView a) parv (s.channelView (parv.getD 1 [])) := by
  cases hs : s.client? a with
  | none => simp only [msJoin, joinLines, sourceView, hs, Option.map_none]
  | some source =>
    match parv with
    | [] => simp only [msJoin, joinLines, sourceView, hs]; rfl
    | [arg] =>
      simp only [msJoin, joinLines, sourceView, hs]
      split <;> rfl
    | [ts, chname] => simp only [msJoin, joinLines, sourceView, hs]; rfl
    | ts :: chname :: m :: rest =>
      simp only [msJoin, sourceView, hs, Option.map_some, List.getD_cons_succ,
        List.getD_cons_zero]
      split
      · rename_i hbad
        cases hview : s.channelView chname with
        | none => rfl
        | some view => simp only [joinLines, if_pos hbad]
      · rename_i hgood
        cases hf : s.hashFindChannel chname with
        | none =>
          have hmade : s.findOrMake now chname =
              ((s.makeChannel now chname).1, (s.makeChannel now chname).2, true) := by
            rw [findOrMake, hf]
          simp only [hmade, channel?_makeChannel, channelView, hf, Option.bind_none, joinLines]
          exact msJoinMerge_lines_new rfl
        | some c =>
          have hmade : s.findOrMake now chname = (s, c, false) := by
            rw [findOrMake, hf]
          simp only [hmade, channelView, hf, Option.bind_some]
          cases hch : s.channel? c with
          | none => rfl
          | some ch =>
            simp only [Option.map_some, joinLines, if_neg hgood]
            exact msJoinMerge_lines

theorem setFinalMode_self (m : Mode) : Join.setFinalMode m m = ⟨[], []⟩ := by
  have hchanges : Join.changes m m = [] := by
    simp [Join.changes, FinalMode.flagsOn, FinalMode.flagsOff, letters, FinalMode.limitOff,
      FinalMode.limitOn, FinalMode.floodOff, FinalMode.FloodOff, FinalMode.floodOn,
      FinalMode.keyOff, FinalMode.keyOn, FinalMode.forwardOff, FinalMode.forwardOn]
  rw [Join.setFinalMode, hchanges]
  rfl

/-- Towards no mode at all nothing is set. -/
theorem changes_zero (m : Mode) : Join.changes Mode.zero m =
    FinalMode.flagsOff Mode.zero m ++ FinalMode.limitOff Mode.zero m ++
      FinalMode.floodOff Mode.zero m ++ FinalMode.keyOff Mode.zero m ++
      FinalMode.forwardOff Mode.zero m := by
  have hflags : FinalMode.flagsOn Mode.zero m = [] := by
    rw [FinalMode.flagsOn, show Mode.zero.mode \ m.mode = ∅ from Finset.empty_sdiff _]
    rfl
  have hlimit : FinalMode.limitOn Mode.zero m = [] := if_neg fun h => h.1 rfl
  have hflood : FinalMode.floodOn Mode.zero m = [] := if_neg fun h => h.1.1.1 rfl
  have hkey : FinalMode.keyOn Mode.zero m = [] := if_neg fun h => h.1 rfl
  have hforward : FinalMode.forwardOn Mode.zero m = [] := if_neg fun h => h.1 rfl
  rw [Join.changes, hflags, hlimit, hflood, hkey, hforward]
  simp

theorem params_changes_zero (m : Mode) : params (Join.changes Mode.zero m) = [] ↔
    m.key.val = [] ∧ m.forward.val = [] := by
  have hflags : params (FinalMode.flagsOff Mode.zero m) = [] := params_letters _ _
  have hlimit : params (FinalMode.limitOff Mode.zero m) = [] := by
    rw [FinalMode.limitOff]
    split <;> rfl
  have hflood : params (FinalMode.floodOff Mode.zero m) = [] := by
    rw [FinalMode.floodOff]
    split <;> rfl
  rw [changes_zero]
  simp only [params_append, hflags, hlimit, hflood, List.nil_append, List.append_eq_nil_iff]
  refine and_congr ?_ ?_
  · by_cases hk : m.key.val = [] <;> simp [FinalMode.keyOff, hk, params, Mode.zero, Buf.empty]
  · by_cases hf : m.forward.val = [] <;>
      simp [FinalMode.forwardOff, hf, params, Mode.zero, Buf.empty]

theorem render_eq_nil {what : Option Bool} {cs : List Change} :
    Join.render what cs = [] ↔ cs = [] := by
  cases cs <;> simp [Join.render]

theorem changes_zero_eq_nil (m : Mode) (hparams : params (Join.changes Mode.zero m) = []) :
    Join.changes Mode.zero m = [] ↔ letters finalFlags m.mode = [] ∧ m.limit = 0 ∧
      (m.msgs = 0 ∨ m.per = 0) := by
  obtain ⟨hkey, hforward⟩ := (params_changes_zero m).mp hparams
  have hk : FinalMode.keyOff Mode.zero m = [] := if_neg fun h => h.1 hkey
  have hf : FinalMode.forwardOff Mode.zero m = [] := if_neg fun h => h.1 hforward
  have hbits : m.mode \ Mode.zero.mode = m.mode := Finset.sdiff_empty
  rw [changes_zero, hk, hf]
  simp only [List.append_nil, List.append_eq_nil_iff, FinalMode.flagsOff, List.map_eq_nil_iff,
    FinalMode.limitOff, FinalMode.floodOff, FinalMode.FloodOff, hbits, and_assoc]
  refine and_congr Iff.rfl (and_congr ?_ ?_)
  · by_cases hl : m.limit = 0 <;> simp [hl, Mode.zero]
  · have hflood : (m.msgs ≠ 0 ∧ Mode.zero.msgs = 0 ∧ m.per ≠ 0 ∧ Mode.zero.per = 0) ↔
        ¬(m.msgs = 0 ∨ m.per = 0) := by
      simp [Mode.zero]
    rw [ite_eq_right_iff, hflood]
    simp [imp_false, or_iff_not_imp_left]

/-- The text behind the letters does not depend on the buffers exactly if a parameter
is written or no letter is. -/
theorem final_text_eq_iff (line : ModeLine) :
    (∀ b b' : JoinBuffers, (if (b.final line).modebuf = [] then ([] : List Str)
        else [(b.final line).modebuf ++ ' ' :: (b.final line).parabuf]) =
      if (b'.final line).modebuf = [] then []
        else [(b'.final line).modebuf ++ ' ' :: (b'.final line).parabuf]) ↔
      line.params ≠ [] ∨ line.modebuf = [] := by
  simp only [JoinBuffers.final]
  by_cases hm : line.modebuf = []
  · simp [hm]
  by_cases hp : line.params = []
  · simp only [hm, hp, if_false, if_true, ne_eq, not_true_eq_false, or_self, iff_false]
    intro h
    have hne := h JoinBuffers.init ⟨[], ['k'], []⟩
    simp [JoinBuffers.init] at hne
  · simp [hm, hp]

theorem joinVerdict_keepNew {newts : ℤ} {ch : Channel}
    (h : (joinVerdict cfg newts ch).keepOurModes = false) :
    (joinVerdict cfg newts ch).keepNewModes = true := by
  revert h
  unfold joinVerdict tsVerdict
  split_ifs <;> simp

theorem joinVerdict_merge_of_keepOur {newts : ℤ} {ch : Channel}
    (h : (joinVerdict cfg newts ch).keepOurModes = true) :
    (joinVerdict cfg newts ch).merge Mode.zero ch.mode = ch.mode := by
  rw [TsVerdict.merge, if_pos h, Mode.joinSame_comm, Mode.joinSame_zero, ite_self]

theorem joinVerdict_merge_of_not {newts : ℤ} {ch : Channel}
    (h : (joinVerdict cfg newts ch).keepOurModes = false) :
    (joinVerdict cfg newts ch).merge Mode.zero ch.mode = Mode.zero := by
  simp [TsVerdict.merge, h, joinVerdict_keepNew h]

theorem paramWritten_iff {newts : ℤ} {ch : Channel} {line : ModeLine}
    (hline : Join.setFinalMode ((joinVerdict cfg newts ch).merge Mode.zero ch.mode) ch.mode =
      line) : (line.params ≠ [] ∨ line.modebuf = []) ↔ ParamWritten cfg newts ch := by
  subst hline
  cases hk : (joinVerdict cfg newts ch).keepOurModes with
  | true =>
    rw [joinVerdict_merge_of_keepOur hk, setFinalMode_self]
    simp [ParamWritten, hk]
  | false =>
    rw [joinVerdict_merge_of_not hk]
    simp only [Join.setFinalMode, ParamWritten, hk, Bool.false_eq_true, false_or, render_eq_nil]
    by_cases hp : params (Join.changes Mode.zero ch.mode) = []
    · have hkf := (params_changes_zero ch.mode).mp hp
      rw [changes_zero_eq_nil ch.mode hp]
      simp [hp, hkf]
    · have hkf := mt (params_changes_zero ch.mode).mpr hp
      simp only [ne_eq, hp, not_false_eq_true, true_or, true_iff]
      by_cases hkey : ch.mode.key.val = []
      · exact Or.inr (Or.inl fun hforward => hkf ⟨hkey, hforward⟩)
      · exact Or.inl hkey

/-- The lines depend on the buffers exactly if the JOIN is not safe. -/
theorem joinLines_eq_iff {source : Option (Str × Bool)} {parv : List Str}
    {view : Option (Channel × List (MemberFlags × Str))} :
    (∀ b b', joinLines cfg b source parv view = joinLines cfg b' source parv view) ↔
      JoinSafe cfg source parv view := by
  unfold joinLines JoinSafe
  split
  · rename_i name hidden ts chname _ _ ch roster
    by_cases hbad : chname.head? = some '&' ∨ checkChannelName false chname false = false
    · simp [hbad]
    · simp only [hbad, false_or]
      rw [← paramWritten_iff rfl, ← final_text_eq_iff]
      refine forall₂_congr fun b b' => ?_
      rw [if_neg id, if_neg id, List.map_inj_right fun x y h => congrArg ModeMessage.text h,
        List.append_cancel_left_eq]
  · rename_i hno
    refine iff_of_true (fun _ _ => rfl) ?_
    split
    · exact (hno _ _ _ _ _ _ _ _ rfl rfl rfl).elim
    · trivial

theorem joinLinesAfter_eq_joinLines (events : List Event) (now : ℤ) (a : ℕ)
    (parv : List Str) : joinLinesAfter cfg events now a parv =
      joinLines cfg (runBuffers cfg events).2 ((runBuffers cfg events).1.sourceView a) parv
        ((runBuffers cfg events).1.channelView (parv.getD 1 [])) :=
  msJoin_lines now _ a parv

/-- After every run, the lines for a safe JOIN show nothing of what came before. -/
theorem joinSecret_of_joinSafe (events : List Event) (a : ℕ) (parv : List Str)
    (hsafe : JoinSafe cfg ((runBuffers cfg events).1.sourceView a) parv
      ((runBuffers cfg events).1.channelView (parv.getD 1 []))) :
    JoinSecret cfg events a parv := by
  intro events' now now' a' hsame
  rw [joinLinesAfter_eq_joinLines, joinLinesAfter_eq_joinLines, ← hsame.source, ← hsame.channel]
  exact joinLines_eq_iff.mpr hsafe _ _

/-- A channel with a user on this server, and a user elsewhere. -/
def quietRun : List Event :=
  [.introduce (Client.make "me".toList false false),
    .introduce (Client.make "a".toList true true), .introduce (Client.make "b".toList true false),
    .join 1700000000 false 1 (fun _ => none) 2 "#b".toList]

/-- Before, a JOIN has taken the key away from another channel. -/
def keyedRun : List Event :=
  quietRun ++ [.join 1700000000 false 1 (fun _ => none) 2 "#x".toList,
    .channelMode 1 { Mode.zero with key := Buf.strlcpy "s3cret".toList },
    .remoteJoin 1700000000 JoinBuffers.init 2 ["1600000000".toList, "#x".toList, ['+']]]

/-- A JOIN that does not win over the timestamp. -/
theorem joinSecret_of_joinSafe_later :
    JoinSecret Config.default quietRun 2 ["1700000001".toList, "#b".toList, ['+']] :=
  joinSecret_of_joinSafe _ _ _ (Or.inr (Or.inl (by decide)))

/-- The line for a JOIN that wins shows the key of the other channel. -/
theorem not_joinSecret_keyedRun :
    ¬ JoinSecret Config.default quietRun 2 ["1600000000".toList, "#b".toList, ['+']] := by
  intro h
  exact absurd (h keyedRun 1700000000 1700000000 2 ⟨by decide, by rfl⟩) (by decide)

end Server

end Unirc
