import Unirc.ChannelJoin

/-!
# JOIN of a local user

`m_join` of `m_join.c`: the list of channels and keys, the tests on each channel,
and the joins that a forward channel adds.
-/

namespace Unirc

open MemberFlag SimpleMode

/-- The scan of `last0`: the text behind the last channel `0`. The test that was
to step over the comma compares a digit, so the comma stays in the text. -/
def last0 : Bool → Str → Option Str
  | _, [] => none
  | true, c :: cs => last0 (c ≠ ',') cs
  | false, c :: cs =>
      if c = '0' ∧ (cs = [] ∨ cs.head? = some ',') then (last0 false cs).orElse fun _ => some cs
      else last0 (c ≠ ',') cs

/-- The next key, where an empty one is none, and the keys left. -/
def takeKey : Option Str → Option Str × Option Str
  | none => (none, none)
  | some [] => (none, some [])
  | some (k :: ks) =>
      let key := (k :: ks).takeWhile (· ≠ ',')
      (if key = [] then none else some key, (cutAt ',' (k :: ks)).map Prod.snd)

/-- What becomes of one channel of the list: the loop ends, goes on, or goes on
after a join with the forward channel of the joined one. -/
inductive JoinOutcome where
  | stop | next | joined (forward : Str)

namespace Server

variable (cfg : Config) (s : Server)

/-- The join of a channel that was found or made. -/
def joinFound (now : ℤ) (a : ℕ) (source : Client) (c : ℕ) (ch : Channel) (flags : MemberFlags)
    (key : Option Str) : Server × JoinOutcome :=
  if (s.canJoin cfg c ch source key).isSome then (s, .next)
  else
    let s := s.addUserToChannel c a flags
    let s := if chflChanop ∈ flags then
        s.updChannel c fun ch => { ch with
          channelts := now
          mode := { ch.mode with mode := ch.mode.mode ∪ {modeTopicLimit, modeNoPrivMsgs} } }
      else s
    (s.updClient a fun k => { k with invited := k.invited.erase c }, .joined ch.mode.forward.val)

/-- The body of the loop of `m_join`. -/
def joinChannel (now : ℤ) (splitmode : Bool) (a : ℕ) (source : Client) (chan : Str)
    (key : Option Str) : Server × JoinOutcome :=
  let split := splitmode && !source.oper && chan.head? ≠ some '&'
  if checkChannelName cfg.disableFakeChannels chan (!source.oper) = false then (s, .next)
  else if cfg.disableLocalChannels = true ∧ chan.head? = some '&' then (s, .next)
  else if source.exemptResv = false ∧ ¬ (source.oper = true ∧ cfg.operPassResv = true) ∧
      (!cfg.resv chan) = cfg.restrictChannels then (s, .next)
  else if cfg.maxChansPerUser ≤ (s.memberships a).length ∧
      (source.oper = false ∨ cfg.maxChansPerUser * 3 ≤ (s.memberships a).length) then (s, .stop)
  else match s.hashFindChannel chan with
    | some c =>
        if s.isMember a c then (s, .next)
        else if split ∧ cfg.noJoinOnSplit then (s, .next)
        else match s.channel? c with
          | some ch =>
              s.joinFound cfg now a source c ch (if s.members c = [] then {chflChanop} else ∅) key
          | none => (s, .next)
    | none =>
        if split ∧ (cfg.noCreateOnSplit ∨ cfg.noJoinOnSplit) then (s, .next)
        else
          let s' := (s.makeChannel now chan).1
          let c := (s.makeChannel now chan).2
          match s'.channel? c with
          | some ch => s'.joinFound cfg now a source c ch {chflChanop} key
          | none => (s, .next)

variable (now : ℤ) (splitmode : Bool) (a : ℕ)

/-- The loop over the channels; `forward i` is the call for the forward channel of
the `i`-th one. -/
def joinLoop (forward : ℕ → Str → Server → Server) :
    ℕ → List Str → Option Str → Server → Server
  | _, [], _, s => s
  | i, chan :: chans, keyList, s =>
      match s.client? a with
      | none => s
      | some source =>
          match s.joinChannel cfg now splitmode a source chan (takeKey keyList).1 with
          | (s, .stop) => s
          | (s, .next) => joinLoop forward (i + 1) chans (takeKey keyList).2 s
          | (s, .joined text) =>
              joinLoop forward (i + 1) chans (takeKey keyList).2
                (if text = [] then s else forward i text s)

/-- `m_join` with calls nested at most `depth` deep. The call for a forward
channel reads its keys from behind the caller's parameters, so the keys of every
call are given, by the positions of the channels that led to it. -/
def mJoin (keys : List ℕ → Option Str) : ℕ → List ℕ → Str → Server → Server
  | 0, _, _, s => s
  | depth + 1, path, chans, s =>
      match s.client? a with
      | none => s
      | some source =>
          if chans = [] ∨ (source.gringo = true ∧ source.myClient = true ∧
              matchMask "#Help".toList chans = false) then s
          else
            let s := if (last0 false chans).isSome then s.doJoin0 a else s
            joinLoop cfg now splitmode a (fun i => mJoin keys depth (i :: path)) 0
              (commaTokens ((last0 false chans).getD chans)) (keys path) s

variable {s cfg}

theorem Inv.joinFound {now : ℤ} {a : ℕ} {source : Client} {c : ℕ} {ch : Channel}
    {flags : MemberFlags} {key : Option Str} (h : s.Inv (some c))
    (hnone : (s.canJoin cfg c ch source key).isSome = true → s.Inv none)
    (hc : (s.graph.listed .right c).isSome = true)
    (ha : (s.client? a).any Client.isClient = true) (hm : s.isMember a c = false) :
    (s.joinFound cfg now a source c ch flags key).1.Inv none ∧
      ((s.joinFound cfg now a source c ch flags key).1.client? a).any Client.isClient = true := by
  unfold Server.joinFound
  split
  · rename_i hj
    exact ⟨hnone hj, ha⟩
  · extract_lets s₁ s₂
    have h₁ : s₁.Inv none := h.addUserToChannel (by simp) hc ha hm flags
    have hr : Relabels s₁ s₂ := by
      dsimp only [s₂]
      split
      · exact Relabels.updChannel s₁ c _
      · exact Relabels.refl s₁
    have hr' : Relabels s₁ (s₂.updClient a fun k => { k with invited := k.invited.erase c }) :=
      hr.trans (Relabels.updClient s₂ a fun _ => rfl)
    refine ⟨h₁.relabel hr', ?_⟩
    rw [hr'.person_any, client?_addUserToChannel]
    exact ha

theorem Inv.joinChannel {now : ℤ} {splitmode : Bool} {a : ℕ} {source : Client} {chan : Str}
    {key : Option Str} (h : s.Inv none) (ha : (s.client? a).any Client.isClient = true) :
    (s.joinChannel cfg now splitmode a source chan key).1.Inv none ∧
      ((s.joinChannel cfg now splitmode a source chan key).1.client? a).any
        Client.isClient = true := by
  unfold Server.joinChannel
  extract_lets split s' c
  iterate 4
    split
    · exact ⟨h, ha⟩
  split
  · rename_i d hd
    split
    · exact ⟨h, ha⟩
    rename_i hm
    split
    · exact ⟨h, ha⟩
    split
    · exact Inv.joinFound (h.weaken _) (fun _ => h) (h.mem_of_find hd) ha (by simpa using hm)
    · exact ⟨h, ha⟩
  · split
    · exact ⟨h, ha⟩
    split
    · rename_i ch hch
      rw [channel?_makeChannel s now chan] at hch
      obtain rfl := Option.some.inj hch
      refine Inv.joinFound (h.makeChannel now chan) (fun hj => ?_) ?_ ha
        (h.isMember_makeChannel now chan a)
      · rw [canJoin_new] at hj
        cases hj
      · exact Option.isSome_of_eq_some (listed_makeChannel s now chan)
    · exact ⟨h, ha⟩

variable {now : ℤ} {splitmode : Bool} {a : ℕ}

theorem Inv.joinLoop {forward : ℕ → Str → Server → Server}
    (hforward : ∀ i text (s : Server), s.Inv none →
      (s.client? a).any Client.isClient = true → (forward i text s).Inv none ∧
        ((forward i text s).client? a).any Client.isClient = true)
    (chans : List Str) (i : ℕ) (keyList : Option Str) (h : s.Inv none)
    (ha : (s.client? a).any Client.isClient = true) :
    (joinLoop cfg now splitmode a forward i chans keyList s).Inv none ∧
      ((joinLoop cfg now splitmode a forward i chans keyList s).client? a).any
        Client.isClient = true := by
  induction chans generalizing i keyList s with
  | nil => exact ⟨h, ha⟩
  | cons chan chans ih =>
      rw [Server.joinLoop]
      split
      · exact ⟨h, ha⟩
      · rename_i source _
        have hstep : (s.joinChannel cfg now splitmode a source chan (takeKey keyList).1).1.Inv none
            ∧ ((s.joinChannel cfg now splitmode a source chan (takeKey keyList).1).1.client? a).any
              Client.isClient = true := h.joinChannel ha
        split
        · rename_i heq
          rw [heq] at hstep
          exact hstep
        · rename_i heq
          rw [heq] at hstep
          exact ih _ _ hstep.1 hstep.2
        · rename_i text heq
          rw [heq] at hstep
          split
          · exact ih _ _ hstep.1 hstep.2
          · obtain ⟨h', ha'⟩ := hforward i text _ hstep.1 hstep.2
            exact ih _ _ h' ha'

/-- However deep the forward joins go, the graph stays sound. -/
theorem Inv.mJoin (keys : List ℕ → Option Str) (depth : ℕ) (path : List ℕ) (chans : Str)
    (h : s.Inv none) (ha : (s.client? a).any Client.isClient = true) :
    (mJoin cfg now splitmode a keys depth path chans s).Inv none ∧
      ((mJoin cfg now splitmode a keys depth path chans s).client? a).any
        Client.isClient = true := by
  induction depth generalizing path chans s with
  | zero => exact ⟨h, ha⟩
  | succ depth ih =>
      rw [Server.mJoin]
      split
      · exact ⟨h, ha⟩
      split
      · exact ⟨h, ha⟩
      · refine Inv.joinLoop (fun i text t ht hat => ih (i :: path) text ht hat) _ _ _ ?_ ?_
        · split
          · exact h.doJoin0 a
          · exact h
        · split
          · rw [client?_doJoin0]
            exact ha
          · exact ha

end Server

end Unirc
