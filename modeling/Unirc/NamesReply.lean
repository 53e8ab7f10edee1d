import Unirc.MemberBurst

/-!
# NAMES and the channels of WHOIS

`channel_member_names` of `channel.c` and the list of channels of `whois_person` of `m_whois.c`. Both
reckon the room of the next item on their own, send the line when it would not fit, and go on behind
the same start.
-/

namespace Unirc

/-- What the two replies read of a client: its names within their limits, its modes, and what it
asked for as a client. -/
structure NamedClient where
  name : Buf NICKLEN
  username : Buf (USERLEN + 1)
  host : Buf (HOSTLEN + 1)
  invisible : Bool
  services : Bool
  hideChannels : Bool
  admin : Bool
  myConnect : Bool
  multiPrefix : Bool
  uhnames : Bool

structure NamedChannel (α : Type*) where
  chname : Buf (CHANNELLEN + 1)
  secret : Bool
  priv : Bool
  members : List (α × MemberFlags)

/-- The server with its clients and the channels of each of them. -/
structure NamesServer (α : Type*) where
  me : Buf (HOSTLEN + 1)
  client : α → NamedClient
  channel : α → List (NamedChannel α × MemberFlags)

/-- The room that is reckoned with, and what is written before the blank. -/
structure ReplyItem where
  tlen : ℕ
  word : Str

/-- The loop over the members that are shown: the text is the buffer up to `t`, and the number is
`tlen`. -/
def memberNamesLoop (start : Str) : Str → ℕ → List ReplyItem → List Str
  | t, tlen, [] => if tlen ≠ 0 then [t.dropLast] else []
  | t, _, x :: xs =>
      if IRCD_BUFSIZE - 2 < t.length + x.tlen then
        t.dropLast :: memberNamesLoop start (start ++ (x.word ++ [' '])) x.tlen xs
      else memberNamesLoop start (t ++ (x.word ++ [' '])) x.tlen xs

/-- The loop over the channels that are shown, with `cur_len`, the buffer up to `t`, and
`reply_to_send`. -/
def whoisChannelsLoop (start : Str) : ℕ → Str → Bool → List ReplyItem → List Str
  | _, t, replyToSend, [] => if replyToSend then [t.dropLast] else []
  | curLen, t, _, x :: xs =>
      if IRCD_BUFSIZE - 2 < curLen + x.tlen then
        t.dropLast :: whoisChannelsLoop start (start.length + (x.word.length + 1))
          (start ++ (x.word ++ [' '])) true xs
      else
        whoisChannelsLoop start (curLen + (x.word.length + 1)) (t ++ (x.word ++ [' '])) true xs

namespace NamedChannel

variable {α : Type*} [DecidableEq α]

def isMember (ch : NamedChannel α) (a : α) : Bool := a ∈ ch.members.map Prod.fst

def pubOrSecret (ch : NamedChannel α) : Char :=
  if ch.secret then '@' else if ch.priv then '*' else '='

end NamedChannel

namespace NamesServer

variable {α : Type*} [DecidableEq α] (s : NamesServer α) (source target : α) (ch : NamedChannel α)

/-- `":%s 353 %s %s %s :"` -/
def namesStart : Str :=
  ':' :: (s.me.val ++ " 353 ".toList ++ (s.client source).name.val ++
    ' ' :: ch.pubOrSecret :: ' ' :: (ch.chname.val ++ [' ', ':']))

/-- The members that are not passed over. -/
def showsMember (m : α × MemberFlags) : Bool :=
  let target := s.client m.1
  !((target.invisible || target.services || target.hideChannels) && !ch.isMember source &&
    !(s.client source).admin)

def memberTlen (m : α × MemberFlags) : ℕ :=
  let target := s.client m.1
  let tlen :=
    if !(s.client source).uhnames then target.name.val.length + 1
    else target.name.val.length + target.username.val.length + target.host.val.length + 3
  if !(s.client source).multiPrefix then
    if memberMarks.any fun p => p.1 ∈ m.2 then tlen + 1 else tlen
  else tlen + memberMarks.countP fun p => p.1 ∈ m.2

def memberWord (m : α × MemberFlags) : Str :=
  let target := s.client m.1
  let status := getMemberStatus m.2 (s.client source).multiPrefix false
  if !(s.client source).uhnames then status ++ target.name.val
  else status ++ target.name.val ++ '!' :: (target.username.val ++ '@' :: target.host.val)

/-- `channel_member_names`, without the end of the list. -/
def channelMemberNames : List Str :=
  if !ch.secret || ch.isMember source then
    memberNamesLoop (s.namesStart source ch) (s.namesStart source ch) 0
      ((ch.members.filter (s.showsMember source ch)).map fun m =>
        ⟨s.memberTlen source m, s.memberWord source m⟩)
  else []

/-- `":%s 319 %s %s :%s"` with nothing for the last. -/
def whoisStart : Str :=
  ':' :: (s.me.val ++ " 319 ".toList ++ (s.client source).name.val ++
    ' ' :: ((s.client target).name.val ++ [' ', ':']))

/-- `ShowChannel` -/
def showChannel : Bool :=
  (!ch.secret && !(s.client target).services && !(s.client target).hideChannels) ||
    ch.isMember source

/-- The channels that are not passed over. -/
def showsChannel : Bool :=
  (s.showChannel source target ch || (s.client source).admin) &&
    !(!(s.client source).myConnect && ch.chname.val.head? = some '&')

def channelWord (c : NamedChannel α × MemberFlags) : Str :=
  (if s.showChannel source target c.1 then [] else ['!']) ++ getMemberStatus c.2 false false ++
    c.1.chname.val

/-- The lines of `RPL_WHOISCHANNELS` of `whois_person`. -/
def whoisChannels : List Str :=
  whoisChannelsLoop (s.whoisStart source target) (s.whoisStart source target).length
    (s.whoisStart source target) false
    (((s.channel target).filter fun c => s.showsChannel source target c.1).map fun c =>
      ⟨3 + c.1.chname.val.length + 1, s.channelWord source target c⟩)

end NamesServer

end Unirc
