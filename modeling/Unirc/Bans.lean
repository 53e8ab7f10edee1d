import Unirc.Match
import Unirc.Server

/-!
# Bans

The ban, exception and invite lists of a channel, who matches them, and the
ban verdict that `can_send` keeps in the membership flags.
-/

namespace Unirc

open MemberFlag SimpleMode

/-- The settings that the channel code reads. `resv` tells the reserved names. -/
structure Config where
  meName : Str
  hideServers : Bool
  ignoreBogusTs : Bool
  useExcept : Bool
  useInvex : Bool
  quietOnBan : Bool
  restrictChannels : Bool
  disableLocalChannels : Bool
  disableFakeChannels : Bool
  operPassResv : Bool
  noCreateOnSplit : Bool
  noJoinOnSplit : Bool
  enableCloakSystem : Bool
  maxChansPerUser : ℕ
  maxBans : ℕ
  resv : Str → Bool

/-- The values of `set_default_conf`. -/
def Config.default : Config where
  meName := []
  hideServers := false
  ignoreBogusTs := false
  useExcept := true
  useInvex := true
  quietOnBan := true
  restrictChannels := false
  disableLocalChannels := false
  disableFakeChannels := false
  operPassResv := true
  noCreateOnSplit := false
  noJoinOnSplit := false
  enableCloakSystem := false
  maxChansPerUser := 15
  maxBans := 25
  resv := fun _ => false

/-- `collapse`: runs of stars become one. -/
def collapse : Str → Str
  | [] => []
  | c :: cs => if c = '*' ∧ cs.head? = some '*' then collapse cs else c :: collapse cs

def checkString (s : Str) : Str := if s = [] then ['*'] else s.takeWhile (!Decimal.isSpace ·)

/-- The texts before and after the first `c`. -/
def cutAt (c : Char) (s : Str) : Option (Str × Str) :=
  match s.dropWhile (· ≠ c) with
  | [] => none
  | _ :: rest => some (s.takeWhile (· ≠ c), rest)

/-- One part of `split_nuh`, in a buffer of `n + 1` bytes that holds a star. -/
def nuhPart (n : ℕ) (s : Str) : Str := if s = [] then ['*'] else s.take n

/-- `split_nuh` into the buffers of `add_id` and `del_id`. -/
def splitNuh (mask : Str) : Str × Str × Str :=
  match cutAt '!' mask with
  | some (nick, rest) =>
      match cutAt '@' rest with
      | some (user, host) =>
          (nuhPart (NICKLEN - 1) nick, nuhPart USERLEN user, nuhPart HOSTLEN host)
      | none => (nuhPart (NICKLEN - 1) nick, nuhPart USERLEN rest, ['*'])
  | none =>
      match cutAt '@' mask with
      | some (user, host) => (['*'], nuhPart USERLEN user, nuhPart HOSTLEN host)
      | none =>
          if mask.any fun c => c = '.' || c = ':' then (['*'], ['*'], mask.take HOSTLEN)
          else (mask.take (NICKLEN - 1), ['*'], ['*'])

/-- The entry for a mask given to `add_id` or `del_id`; `len` leaves out the `!` and the `@` of the
text that is printed back. -/
def Ban.parse (banid : Str) : Ban :=
  let (name, user, host) := splitNuh (checkString banid)
  let text := name ++ '!' :: (user ++ '@' :: host)
  ⟨text.length - 2, name, user, host, parseNetmask host⟩

/-- The mask as it is printed back. -/
def Ban.text (b : Ban) : Str := b.name ++ '!' :: (b.username ++ '@' :: b.host)

/-- `len` is the length of the parts. -/
def Ban.Measured (b : Ban) : Prop := b.len = b.text.length - 2

theorem Ban.Measured.length_text {b : Ban} (h : b.Measured) : b.len + 3 = b.text.length + 1 := by
  have htext : 2 ≤ b.text.length := by
    simp only [Ban.text, List.length_append, List.length_cons]
    omega
  rw [h]
  omega

def Ban.same (b b' : Ban) : Bool :=
  !irccmp b.name b'.name && !irccmp b.username b'.username && !irccmp b.host b'.host

/-- `CHFL_BAN`, `CHFL_EXCEPTION` and `CHFL_INVEX`. -/
inductive BanType where
  | ban | exception | invex
  deriving DecidableEq, Repr

def Channel.bans (ch : Channel) : BanType → List Ban
  | .ban => ch.banlist
  | .exception => ch.exceptlist
  | .invex => ch.invexlist

def Channel.setBans (ch : Channel) (l : List Ban) : BanType → Channel
  | .ban => { ch with banlist := l }
  | .exception => { ch with exceptlist := l }
  | .invex => { ch with invexlist := l }

/-- The address part of the test on one ban. -/
def banAddr (type : Netmask) (ip : IpAddr) : Bool :=
  match type, ip with
  | .ipv4 addr bits, .inet ip => matchIpv4 ip addr bits.toNat
  | .ipv6 addr bits, .inet6 ip => matchIpv6 ip addr bits.toNat
  | _, _ => false

/-- `find_bmask`; masks whose nick part looks like `r/...` are passed over. -/
def findBmask (who : Client) (list : List Ban) : Bool :=
  list.any fun bp => !matchMask "r/*".toList bp.name &&
    matchMask bp.name who.name.val && matchMask bp.username who.username &&
    (banAddr bp.type who.ip || matchMask bp.host who.host || matchMask bp.host who.realhost ||
      matchMask bp.host who.sockhost)

def isBanned (cfg : Config) (ch : Channel) (who : Client) : Bool :=
  findBmask who ch.banlist && (!cfg.useExcept || !findBmask who ch.exceptlist)

/-- The reasons of `can_join`. -/
inductive JoinError where
  | errBannedFromChan | errInviteOnlyChan | errOperOnlyChan | errChannelIsFull
  | errNeedReggedNick | errChanBanReason | errBadChannelKey
  deriving DecidableEq, Repr

/-- The results of `can_send`; `text` is one of the codes of the tests on the text. -/
inductive SendResult where
  | no | nonop | opv | noRegNick | noCtrls | text (code : ℤ)
  deriving DecidableEq, Repr

/-- `can_send(...) > 0`. -/
def SendResult.allows : SendResult → Bool
  | .nonop | .opv => true
  | _ => false

/-- What is sent: the last field is the code by which the flood and spam tests
turn the text down, if they do. -/
structure Message where
  notice : Bool
  hasCtrls : Bool
  textCode : Option ℤ

def statusFlags : MemberFlags := {chflOwner, chflProtected, chflChanop, chflHalfop, chflVoice}

def banCacheFlags : MemberFlags := {chflBanChecked, chflBanSilenced}

namespace Server

variable (cfg : Config) (s : Server)

/-- `can_join`. -/
def canJoin (c : ℕ) (ch : Channel) (source : Client) (key : Option Str) : Option JoinError :=
  if isBanned cfg ch source then some .errBannedFromChan
  else if modeInviteOnly ∈ ch.mode.mode ∧ c ∉ source.invited ∧
      ¬ (cfg.useInvex = true ∧ findBmask source ch.invexlist = true) then some .errInviteOnlyChan
  else if modeOperOnly ∈ ch.mode.mode ∧ source.oper = false then some .errOperOnlyChan
  else if ch.mode.limit ≠ 0 ∧ ch.mode.limit.toNat ≤ (s.members c).length then
    some .errChannelIsFull
  else if modeRegOnly ∈ ch.mode.mode ∧ source.regNick = false then some .errNeedReggedNick
  else if modeSslOnly ∈ ch.mode.mode ∧ source.ssl = false then some .errChanBanReason
  else if ch.mode.key.val ≠ [] ∧ (key.all fun k => irccmp ch.mode.key.val k) = true then
    some .errBadChannelKey
  else none

/-- `clear_ban_cache`. -/
def clearBanCache (c : ℕ) : Server :=
  (s.members c).foldl (fun s m =>
    if (s.graph.links m).any fun r => (s.client? r.left).any Client.myConnect then
      s.updFlags m (· \ banCacheFlags) else s) s

/-- `clear_ban_cache_client`. -/
def clearBanCacheClient (a : ℕ) : Server :=
  (s.memberships a).foldl (fun s m => s.updFlags m (· \ banCacheFlags)) s

/-- `add_id` with the result it returns. -/
def addId (a c : ℕ) (banid : Str) (type : BanType) : Server × Bool :=
  match s.client? a, s.channel? c with
  | some source, some ch =>
      if source.myClient ∧
          cfg.maxBans ≤ ch.banlist.length + ch.exceptlist.length + ch.invexlist.length then
        (s, false)
      else
        let ban := Ban.parse (if source.myClient then collapse banid else banid)
        let s := if type = .invex then s else s.clearBanCache c
        if (ch.bans type).any ban.same then (s, false)
        else (s.updChannel c fun ch => ch.setBans (ban :: ch.bans type) type, true)
  | _, _ => (s, false)

/-- `del_id` with the result it returns. -/
def delId (c : ℕ) (banid : Str) (type : BanType) : Server × Bool :=
  match s.channel? c with
  | some ch =>
      let ban := Ban.parse banid
      let s := if type = .invex then s else s.clearBanCache c
      if (ch.bans type).any ban.same then
        (s.updChannel c fun ch => ch.setBans ((ch.bans type).eraseP ban.same) type, true)
      else (s, false)
  | none => (s, false)

/-- The tests of `can_send` behind the membership. -/
def canSendModes (ch : Channel) (source : Client) (msg : Message) : SendResult :=
  if modeModerated ∈ ch.mode.mode then .no
  else if modeModReg ∈ ch.mode.mode ∧ source.regNick = false then .noRegNick
  else if modeNoCtrl ∈ ch.mode.mode ∧ msg.hasCtrls = true then .noCtrls
  else if msg.notice = true ∧ modeNoNotices ∈ ch.mode.mode then .no
  else msg.textCode.elim .nonop .text

/-- `can_send` for a source with the membership `m`. -/
def canSendMember (ch : Channel) (source : Client) (m : ℕ) (msg : Message) :
    Server × SendResult :=
  let flags := (s.graph.links m).elim ∅ Link.label
  if ¬ Disjoint flags statusFlags then (s, .opv)
  else if ¬ (cfg.quietOnBan = true ∧ source.myClient = true) then
    (s, canSendModes ch source msg)
  else if chflBanSilenced ∈ flags then (s, .no)
  else if chflBanChecked ∈ flags then (s, canSendModes ch source msg)
  else if isBanned cfg ch source then (s.updFlags m (· ∪ banCacheFlags), .no)
  else (s.updFlags m (insert chflBanChecked), canSendModes ch source msg)

/-- `can_send`. -/
def canSend (a c : ℕ) (msg : Message) : Server × SendResult :=
  match s.client? a, s.channel? c with
  | some source, some ch =>
      if source.isClient = false ∨ source.services then (s, .opv)
      else if source.myClient ∧ source.exemptResv = false ∧
          ¬ (source.oper = true ∧ cfg.operPassResv = true) ∧
          (!cfg.resv ch.chname.val) = cfg.restrictChannels then (s, .no)
      else match s.findChannelLink a c with
        | some m => s.canSendMember cfg ch source m msg
        | none =>
            if modeNoPrivMsgs ∈ ch.mode.mode then (s, .no) else (s, canSendModes ch source msg)
  | _, _ => (s, .no)

variable {cfg s}

theorem Relabels.clearBanCache (s : Server) (c : ℕ) : Relabels s (s.clearBanCache c) := by
  refine Relabels.foldl _ (fun t m => ?_) _ s
  split
  · exact Relabels.updFlags t m _
  · exact Relabels.refl t

theorem Relabels.clearBanCacheClient (s : Server) (a : ℕ) :
    Relabels s (s.clearBanCacheClient a) :=
  Relabels.foldl _ (fun t m => Relabels.updFlags t m _) _ s

theorem Relabels.addId (s : Server) (a c : ℕ) (banid : Str) (type : BanType) :
    Relabels s (s.addId cfg a c banid type).1 := by
  unfold Server.addId
  split
  · split
    · exact Relabels.refl s
    · extract_lets ban t
      have ht : Relabels s t := by
        dsimp only [t]
        split
        · exact Relabels.refl s
        · exact Relabels.clearBanCache s c
      split
      · exact ht
      · exact ht.trans (Relabels.updChannel t c _)
  · exact Relabels.refl s

theorem Relabels.delId (s : Server) (c : ℕ) (banid : Str) (type : BanType) :
    Relabels s (s.delId c banid type).1 := by
  unfold Server.delId
  split
  · extract_lets ban t
    have ht : Relabels s t := by
      dsimp only [t]
      split
      · exact Relabels.refl s
      · exact Relabels.clearBanCache s c
    split
    · exact ht.trans (Relabels.updChannel t c _)
    · exact ht
  · exact Relabels.refl s

theorem Relabels.canSendMember (s : Server) (ch : Channel) (source : Client) (m : ℕ)
    (msg : Message) : Relabels s (s.canSendMember cfg ch source m msg).1 := by
  unfold Server.canSendMember
  extract_lets flags
  split_ifs
  all_goals first
    | exact Relabels.refl s
    | exact Relabels.updFlags s _ _

/-- `can_send` changes flags only. -/
theorem Relabels.canSend (s : Server) (a c : ℕ) (msg : Message) :
    Relabels s (s.canSend cfg a c msg).1 := by
  unfold Server.canSend
  split
  · split
    · exact Relabels.refl s
    split
    · exact Relabels.refl s
    split
    · exact Relabels.canSendMember s _ _ _ _
    split <;> exact Relabels.refl s
  · exact Relabels.refl s

/-- Nobody is kept out of a channel just made. -/
theorem canJoin_new (s : Server) (c : ℕ) (source : Client) (key : Option Str) (chname : Buf _)
    (now : ℤ) : s.canJoin cfg c ⟨chname, now, Mode.zero, [], [], []⟩ source key = none := by
  simp [canJoin, isBanned, findBmask, Mode.zero]

end Server

end Unirc
