import Unirc.ChannelJoin
import Unirc.SetFinalMode

/-!
# SJOIN

`ms_sjoin` of `m_sjoin.c`: the merge of timestamps and modes, the members of the
last parameter, and the end of a channel that got none of them.
-/

namespace Unirc

open MemberFlag

/-- The words of the last parameter. -/
def nickWords (nicks : Str) : List Str := (nicks.splitOn ' ').filter (· ≠ [])

/-- The status flags in front of a nick, and the nick. -/
def readPrefixes : Str → MemberFlags × Str
  | [] => (∅, [])
  | x :: xs =>
      match nickPrefixes.lookup x with
      | some flag => (insert flag (readPrefixes xs).1, (readPrefixes xs).2)
      | none => (∅, x :: xs)

/-- The flags a member gets; those of a side that lost are not believed. -/
def believedFlags (keepNewModes : Bool) (flags : MemberFlags) : MemberFlags :=
  if keepNewModes then flags
  else if Disjoint flags {chflOwner, chflProtected, chflChanop, chflHalfop} then ∅
  else {chflDeopped}

/-- The modes of the line sent on: `modebuf` and `parabuf`. -/
def sjoinRelayModes (h : SjoinHeader) (v : TsVerdict) (mode oldmode : Mode) : Str × Str :=
  if h.modeText.head? ≠ some '0' ∧ v.keepNewModes then channelModes mode true
  else (['0'], (Sjoin.setFinalMode mode oldmode).params.flatMap (· ++ [' ']))

/-- The length of `":%s SJOIN %lu %s %s %s:"`. -/
def sjoinRelayLength (source : Client) (tstosend : ℤ) (chname : Str) (modes : Str × Str) : ℕ :=
  (':' :: (source.idOrName ++ " SJOIN ".toList ++ formatULong tstosend ++ ' ' :: (chname ++
    ' ' :: (modes.1 ++ ' ' :: (modes.2 ++ [':']))))).length

/-- The line leaves no room for a nick. -/
def sjoinTooLong (len : ℕ) : Prop := IRCD_BUFSIZE - max NICKLEN IDLEN - 2 - 5 - 1 ≤ len

instance (len : ℕ) : Decidable (sjoinTooLong len) := by
  unfold sjoinTooLong
  infer_instance

namespace Server

variable (s : Server)

/-- One nick of an SJOIN that came over `link`; `find` is `find_chasing`. -/
def sjoinNick (find : Str → Option ℕ) (link c : ℕ) (keepNewModes : Bool) (word : Str) : Server :=
  match find (readPrefixes word).2 with
  | none => s
  | some a =>
      if (s.client? a).any fun who => who.from_ == link && who.isClient then
        if s.isMember a c then s
        else s.addUserToChannel c a (believedFlags keepNewModes (readPrefixes word).1)
      else s

/-- The three calls of `remove_ban_list` and the cache that depends on them. -/
def removeBanLists (c : ℕ) : Server :=
  (s.updChannel c fun ch => { ch with banlist := [], exceptlist := [], invexlist := [] }
    ).clearBanCache c

variable (cfg : Config)

/-- `ms_sjoin` from the merge on, for a channel found or made. -/
def msSjoinMerge (find : Str → Option ℕ) (link : ℕ) (source : Client) (h : SjoinHeader)
    (isnew : Bool) (c : ℕ) (ch : Channel) : Server :=
  let v := tsVerdict isnew (checkBogusTs cfg.ignoreBogusTs h.newts ch.channelts) ch.channelts
  let mode := v.merge h.mode ch.mode
  let s := s.updChannel c fun ch => { ch with channelts := v.channelts, mode := mode }
  let s := if v.keepOurModes then s else s.removeOurModes c
  let modes := sjoinRelayModes h v mode ch.mode
  if sjoinTooLong (sjoinRelayLength source v.tstosend ch.chname.val modes) then s
  else
    let s := (nickWords h.nicks).foldl
      (fun s word => s.sjoinNick find link c v.keepNewModes word) s
    if s.members c = [] ∧ isnew then s.destroyChannel c
    else if h.nicks = [] then s
    else if source.hasId ∧ v.keepOurModes = false then s.removeBanLists c
    else s

/-- `ms_sjoin` for the parameters behind the sender. -/
def msSjoin (now : ℤ) (find : Str → Option ℕ) (link a : ℕ) (parv : List Str) : Server :=
  match s.client? a, parseSjoin parv with
  | some source, some h =>
      if source.isClient then s
      else
        let (s', c, isnew) := s.findOrMake now h.chname
        match s'.channel? c with
        | some ch => s'.msSjoinMerge cfg find link source h isnew c ch
        | none => s
  | _, _ => s

end Server

section Length

variable (m : Mode)

theorem length_channelModes :
    (channelModes m true).1.length ≤ 21 ∧ (channelModes m true).2.length ≤ 140 := by
  have hl := length_letters_le flags m.mode
  have hflags : flags.length = 16 := rfl
  have hlimit := length_formatInt_le m.limit
  have hmsgs := length_formatInt_le m.msgs
  have hper := length_formatInt_le m.per
  have hkey : m.key.val.length < 24 := m.key.property
  have hforward : m.forward.val.length < 128 := m.forward.property
  simp only [channelModes, and_true, or_true, List.length_append, List.length_cons, formatFlood]
  constructor
  · split_ifs <;> simp <;> omega
  · split_ifs <;> simp <;> omega

/-- The length of what `ircsprintf` adds to `parabuf`. -/
def paramLength (cs : List Change) : ℕ := ((params cs).flatMap (· ++ [' '])).length

theorem paramLength_append (cs ds : List Change) :
    paramLength (cs ++ ds) = paramLength cs + paramLength ds := by
  rw [paramLength, params_append, List.flatMap_append, List.length_append]
  rfl

theorem paramLength_single (adding : Bool) (letter : Char) (p : Str) :
    paramLength [⟨adding, letter, some p⟩] = p.length + 1 := by
  simp [paramLength, params]

/-- The parameters that `set_final_mode` prints for a channel just made. -/
theorem length_finalParams_new :
    ((Sjoin.setFinalMode m Mode.zero).params.flatMap (· ++ [' '])).length ≤ 170 := by
  have hoff : paramLength (Sjoin.off m Mode.zero) = 0 := by
    simp [Sjoin.off, paramLength, FinalMode.flagsOff, FinalMode.limitOff, FinalMode.floodOff,
      FinalMode.FloodOff, FinalMode.keyOff, FinalMode.forwardOff, Mode.zero, params]
  have hflags : paramLength (FinalMode.flagsOn m Mode.zero) = 0 := by
    rw [paramLength, FinalMode.flagsOn, params_letters]
    rfl
  have hlimit : paramLength (FinalMode.limitOn m Mode.zero) ≤ 12 := by
    have := length_formatInt_le m.limit
    unfold FinalMode.limitOn
    split
    · rw [paramLength_single]
      omega
    · exact Nat.zero_le _
  have hflood : paramLength (FinalMode.floodOn m Mode.zero) ≤ 6 := by
    unfold FinalMode.floodOn
    split
    · rename_i h
      have hmsgs := length_formatInt_small h.2.1
      have hper := length_formatInt_small h.2.2.1
      rw [paramLength_single, formatFlood, List.length_append, List.length_cons]
      omega
    · exact Nat.zero_le _
  have hkey : paramLength (FinalMode.keyOn m Mode.zero) ≤ 24 := by
    have : m.key.val.length < 24 := m.key.property
    unfold FinalMode.keyOn
    split
    · rw [paramLength_single]
      omega
    · exact Nat.zero_le _
  have hforward : paramLength (FinalMode.forwardOn m Mode.zero) ≤ 128 := by
    have : m.forward.val.length < 128 := m.forward.property
    unfold FinalMode.forwardOn
    split
    · rw [paramLength_single]
      omega
    · exact Nat.zero_le _
  change paramLength (Sjoin.off m Mode.zero ++ Sjoin.on m Mode.zero) ≤ 170
  simp only [paramLength_append, Sjoin.on, hoff, hflags]
  omega

theorem length_idOrName (source : Client) : source.idOrName.length ≤ 63 := by
  have hid : source.id.val.length < 13 := source.id.property
  have hname : source.name.val.length < 64 := source.name.property
  unfold Client.idOrName
  split <;> omega

/-- The line for a channel just made always leaves room for a nick. -/
theorem not_sjoinTooLong_new (source : Client) (h : SjoinHeader) (v : TsVerdict) (ts : ℤ)
    (chname : Buf (CHANNELLEN + 1)) : ¬ sjoinTooLong
      (sjoinRelayLength source ts chname.val (sjoinRelayModes h v m Mode.zero)) := by
  have hid := length_idOrName source
  have hts := length_formatULong_le ts
  have hname : chname.val.length < 201 := chname.property
  have hmodes : (sjoinRelayModes h v m Mode.zero).1.length +
      (sjoinRelayModes h v m Mode.zero).2.length ≤ 171 := by
    unfold sjoinRelayModes
    split
    · have := length_channelModes m
      omega
    · exact Nat.add_le_add_left (length_finalParams_new m) 1
  have hlen : sjoinRelayLength source ts chname.val (sjoinRelayModes h v m Mode.zero) =
      source.idOrName.length + (formatULong ts).length + chname.val.length +
        ((sjoinRelayModes h v m Mode.zero).1.length +
          (sjoinRelayModes h v m Mode.zero).2.length) + 12 := by
    simp only [sjoinRelayLength, List.length_cons, List.length_append, List.length_nil]
    have : " SJOIN ".toList.length = 7 := rfl
    omega
  rw [sjoinTooLong, hlen]
  have : max NICKLEN IDLEN = 31 := rfl
  simp only [IRCD_BUFSIZE, this]
  omega

end Length

namespace Server

variable {s : Server} {pending : Option ℕ} {c : ℕ}

theorem Inv.sjoinNick (h : s.Inv pending) (hp : ∀ d, pending = some d → d = c)
    (hc : (s.graph.listed .right c).isSome = true) (find : Str → Option ℕ) (link : ℕ)
    (keepNewModes : Bool) (word : Str) :
    (s.sjoinNick find link c keepNewModes word).Inv pending ∧
      ((s.sjoinNick find link c keepNewModes word).graph.listed .right c).isSome = true := by
  unfold Server.sjoinNick
  split
  · exact ⟨h, hc⟩
  · rename_i a _
    split
    · rename_i ha
      split
      · exact ⟨h, hc⟩
      · rename_i hm
        refine ⟨(h.addUserToChannel hp hc ?_ (by simpa using hm) _).weaken _, ?_⟩
        · cases hw : s.client? a with
          | none => simp [hw] at ha
          | some who =>
            simp only [hw, Option.any_some, Bool.and_eq_true] at ha
            exact ha.2
        · rwa [← isSome_channel?, channel?_addUserToChannel, isSome_channel?]
    · exact ⟨h, hc⟩

theorem Inv.sjoinNicks (h : s.Inv pending) (hp : ∀ d, pending = some d → d = c)
    (hc : (s.graph.listed .right c).isSome = true) (find : Str → Option ℕ) (link : ℕ)
    (keepNewModes : Bool) (words : List Str) :
    (words.foldl (fun s word => s.sjoinNick find link c keepNewModes word) s).Inv pending := by
  induction words generalizing s with
  | nil => exact h
  | cons word words ih =>
      obtain ⟨h', hc'⟩ := h.sjoinNick hp hc find link keepNewModes word
      exact ih h' hc'

theorem Relabels.removeBanLists (s : Server) (c : ℕ) : Relabels s (s.removeBanLists c) :=
  (Relabels.updChannel s c _).trans (Relabels.clearBanCache _ c)

variable {cfg : Config}

theorem Inv.msSjoinMerge {find : Str → Option ℕ} {link : ℕ} {source : Client} {h : SjoinHeader}
    {isnew : Bool} {ch : Channel} (hs : s.Inv (if isnew then some c else none))
    (hc : (s.graph.listed .right c).isSome = true)
    (hnew : isnew = true → ch.mode = Mode.zero) :
    (s.msSjoinMerge cfg find link source h isnew c ch).Inv none := by
  unfold Server.msSjoinMerge
  extract_lets v mode s₁ s₂ modes s₃
  have hr : Relabels s s₂ := by
    have h₁ : Relabels s s₁ := Relabels.updChannel s c _
    refine h₁.trans ?_
    dsimp only [s₂]
    split
    · exact Relabels.refl s₁
    · exact Relabels.removeOurModes s₁ c
  have h₂ := hs.relabel hr
  split
  · rename_i hlong
    cases isnew with
    | false => exact h₂
    | true =>
      have hz : ch.mode = Mode.zero := hnew rfl
      dsimp only [modes] at hlong
      rw [hz] at hlong
      exact absurd hlong (not_sjoinTooLong_new mode source h v _ ch.chname)
  · have h₃ : s₃.Inv (if isnew then some c else none) :=
      h₂.sjoinNicks (by cases isnew <;> simp) (hr.shape.listed _ _ ▸ hc) find link _ _
    split
    · rename_i hempty
      rw [hempty.2] at h₃
      exact h₃.destroyChannel hempty.1
    · rename_i hempty
      have h₄ : s₃.Inv none := by
        cases isnew with
        | false => exact h₃
        | true => exact h₃.settle (by simpa using hempty)
      split
      · exact h₄
      split
      · exact h₄.relabel (Relabels.removeBanLists s₃ c)
      · exact h₄

theorem Inv.msSjoin {now : ℤ} {find : Str → Option ℕ} {link a : ℕ} {parv : List Str}
    (h : s.Inv none) : (s.msSjoin cfg now find link a parv).Inv none := by
  unfold Server.msSjoin
  split
  · rename_i source header _ _
    split
    · exact h
    · cases hf : s.findOrMake now header.chname with
      | mk s' rest =>
        obtain ⟨d, isnew⟩ := rest
        obtain ⟨hc, hs', hold⟩ := h.findOrMake now header.chname hf
        dsimp only
        split
        · rename_i ch hch
          refine Inv.msSjoinMerge ?_ hc fun hnew => ?_
          · cases isnew with
            | false =>
              obtain ⟨rfl, -⟩ := hold rfl
              exact h
            | true => exact hs'
          · rw [hnew] at hf
            rw [channel?_findOrMake_new _ hf] at hch
            obtain rfl := Option.some.inj hch
            rfl
        · exact h
  · exact h

end Server

end Unirc
