import Unirc.Match
import Unirc.Runs
import Unirc.Server

/-!
# Sends to many clients

`sendto_channel_butone`, `sendto_channel_remote`, `sendto_common_channels_local` and
`sendto_match_servs` of `send.c`. A client or link that got the message is stamped with the number
of the send, and the numbers come from one counter.
-/

namespace Unirc

/-- The range of `current_serial`. -/
abbrev SERIAL_RANGE : ℕ := 2 ^ 64

abbrev CAP_CHW : ℕ := 0x8
abbrev CAP_TS6 : ℕ := 0x400

/-- What sending reads of a client. `shown` is `get_client_name`, `umodeAll` is a mode of
`UMODE_ALL` of an operator, and `sendq` is the length of the send queue. -/
structure Peer where
  name : Str
  shown : Str
  from_ : ℕ
  myConnect : Bool
  server : Bool
  dead : Bool
  closing : Bool
  deaf : Bool
  away : Bool
  last : ℤ
  caps : ℕ
  umodeAll : Bool
  serial : ℕ
  sendq : ℕ
  maxSendq : ℕ

namespace Peer

variable (p : Peer)

def defunct : Bool := p.dead || p.closing

/-- A notice to operators goes to the local ones. -/
def notices : Bool := p.myConnect && p.umodeAll

def capable (caps nocaps : ℕ) : Bool := (p.caps &&& caps) == caps && (p.caps &&& nocaps) == 0

/-- `is_bwsave` -/
def bwsave (bwSaver : Bool) (now : ℤ) : Bool :=
  p.myConnect && bwSaver && (p.away || 1800 < now - p.last)

/-- The send queue has no room. -/
def full (len : ℕ) : Bool := p.maxSendq < p.sendq + len

def deadLinkOnWrite : Peer := if p.defunct then p else { p with sendq := 0, dead := true }

/-- `send_queued_write`, where `io` says how many bytes are taken from a queue of a length, and
whether that ends in an error. -/
def sendQueuedWrite (io : ℕ → ℕ × Bool) : Peer :=
  if p.dead then p
  else if (io p.sendq).2 then deadLinkOnWrite { p with sendq := p.sendq - (io p.sendq).1 }
  else { p with sendq := p.sendq - (io p.sendq).1 }

/-- The length from which a queue is written at once. -/
def writeLength : ℕ := if p.server then 1024 else 4096

/-- The part of `send_message` behind the test of the queue. -/
def put (io : ℕ → ℕ × Bool) (len : ℕ) : Peer :=
  if p.writeLength < p.sendq + len then
    sendQueuedWrite { p with sendq := p.sendq + len } io
  else { p with sendq := p.sendq + len }

/-- What no send changes. -/
def fixed : Peer := { p with dead := false, serial := 0, sendq := 0 }

end Peer

/-- A message, or a notice to the operators about a full queue. -/
inductive Sent where
  | message (buf : Str)
  | notice (buf : Str)
  deriving DecidableEq

def Sent.buf : Sent → Str
  | .message buf => buf
  | .notice buf => buf

/-- `send_format` with the end of the line. -/
def sendLine (text : Str) : Str := text.take (IRCD_BUFSIZE - 2) ++ ['\r', '\n']

/-- The clients with the counter, and what was put in which queue. -/
structure Wire where
  me : Str
  currentSerial : ℕ
  peers : ℕ → Option Peer
  operList : List ℕ
  queued : List (ℕ × Sent)

namespace Wire

def init (me : Str) : Wire := ⟨me, 0, fun _ => none, [], []⟩

variable (io : ℕ → ℕ → ℕ × Bool) (w : Wire)

def updPeer (k : ℕ) (f : Peer → Peer) : Wire :=
  { w with peers := Function.update w.peers k ((w.peers k).map f) }

def put (k : ℕ) (m : Sent) : Wire :=
  { w.updPeer k (fun p => p.put (io k) m.buf.length) with queued := w.queued ++ [(k, m)] }

/-- A notice of `sendto_realops_flags` to one operator. -/
def sendNotice (text : Str) (k : ℕ) : Wire :=
  match w.peers k with
  | none => w
  | some p =>
      if p.notices = true ∧ p.dead = false then
        let m := Sent.notice (sendLine (':' :: (w.me ++ " NOTICE ".toList ++ p.name ++
          " :*** Notice -- ".toList ++ text)))
        if p.full m.buf.length then w.updPeer k Peer.deadLinkOnWrite else w.put io k m
      else w

def sendtoRealops (text : Str) : Wire := w.operList.foldl (fun w k => w.sendNotice io text k) w

def sendMessage (k : ℕ) (m : Sent) : Wire :=
  match w.peers k with
  | none => w
  | some p =>
      if p.full m.buf.length then
        let w := if p.server then
            w.sendtoRealops io ("Max SendQ limit exceeded for ".toList ++ p.shown ++ ": ".toList ++
              formatULong (p.sendq + m.buf.length) ++ " > ".toList ++ formatULong p.maxSendq)
          else w
        w.updPeer k Peer.deadLinkOnWrite
      else w.put io k m

/-- `send_message_remote`. A link is a server, so the branch for ghosts is not reached. -/
def sendMessageRemote (source : Client) (k : ℕ) (m : Sent) : Wire :=
  match w.peers k with
  | none => w
  | some p =>
      if p.myConnect then w.sendMessage io k m
      else w.sendtoRealops io ("server send message to ".toList ++ p.name ++
        " dropped from ".toList ++ source.name.val ++ "(Not local server)".toList)

def mark (k : ℕ) : Wire := w.updPeer k fun p => { p with serial := w.currentSerial }

def bump : Wire := { w with currentSerial := (w.currentSerial + 1) % SERIAL_RANGE }

/-- The client is not stamped with the number of this send. -/
def unmarked (k : ℕ) : Bool := (w.peers k).any fun p => p.serial ≠ w.currentSerial

end Wire

/-- A message to a channel. -/
structure ChannelMessage where
  source : Client
  command : Str
  chname : Str
  text : Str

namespace ChannelMessage

variable (x : ChannelMessage)

def buffer (sender : Str) : Str :=
  sendLine (':' :: (sender ++ ' ' :: (x.command ++ ' ' :: (x.chname ++ ' ' :: x.text))))

def localBuf : Str :=
  if x.source.isClient = false then x.buffer x.source.name.val
  else x.buffer (x.source.name.val ++ '!' :: (x.source.username ++ '@' :: x.source.host))

def remoteBuf : Str := x.buffer x.source.name.val

def uidBuf : Str := x.buffer x.source.idOrName

end ChannelMessage

namespace Wire

variable (io : ℕ → ℕ → ℕ × Bool) (w : Wire)

section Butone

variable (one : ℕ) (x : ChannelMessage) (bwSaver : Bool) (now : ℤ)

/-- A member gets the message of `sendto_channel_butone`, or the link to it does. -/
def butoneTakes (p : Peer) : Bool :=
  !(p.defunct || p.deaf || p.bwsave bwSaver now || p.from_ == one)

def butoneBuf (l : Peer) : Str :=
  if l.caps &&& CAP_TS6 ≠ 0 then x.uidBuf else x.remoteBuf

def butoneStep (w : Wire) (a : ℕ) : Wire :=
  match w.peers a with
  | none => w
  | some p =>
      if butoneTakes one bwSaver now p then
        if p.myConnect then
          if w.unmarked a then (w.sendMessage io a (.message x.localBuf)).mark a else w
        else
          match w.peers p.from_ with
          | none => w
          | some l =>
              if w.unmarked p.from_ then
                (w.sendMessageRemote io x.source p.from_ (.message (butoneBuf x l))).mark p.from_
              else w
      else w

def sendtoChannelButone (members : List ℕ) : Wire :=
  members.foldl (butoneStep io one x bwSaver now) w.bump

end Butone

section Remote

variable (one : ℕ) (type : MemberFlags) (caps nocaps : ℕ) (text : Str)

/-- No type is every type. -/
def hasType (flags : MemberFlags) : Prop := type = ∅ ∨ ¬ Disjoint flags type

instance (flags : MemberFlags) : Decidable (hasType type flags) := by
  unfold hasType
  infer_instance

def remoteStep (w : Wire) (a : ℕ × MemberFlags) : Wire :=
  match w.peers a.1 with
  | none => w
  | some p =>
      if hasType type a.2 ∧ p.myConnect = false then
        match w.peers p.from_ with
        | none => w
        | some l =>
            if p.from_ ≠ one ∧ l.capable caps nocaps = true then
              if w.unmarked p.from_ then
                (w.sendMessage io p.from_ (.message (sendLine text))).mark p.from_
              else w
            else w
      else w

/-- `sendto_channel_remote`, where `one` is `one->from`. -/
def sendtoChannelRemote (members : List (ℕ × MemberFlags)) : Wire :=
  members.foldl (remoteStep io one type caps nocaps text) w.bump

end Remote

section Common

variable (user : ℕ) (touser : Bool) (text : Str)

def commonTakes (a : ℕ) (p : Peer) : Bool := p.myConnect && a != user && !p.defunct

def commonStep (w : Wire) (a : ℕ) : Wire :=
  match w.peers a with
  | none => w
  | some p =>
      if commonTakes user a p then
        if w.unmarked a then (w.mark a).sendMessage io a (.message (sendLine text)) else w
      else w

/-- `sendto_common_channels_local`, with the members of each channel of the user. -/
def sendtoCommonChannelsLocal (channels : List (List ℕ)) : Wire :=
  let w := channels.foldl (fun w members => members.foldl (commonStep io user text) w) w.bump
  match w.peers user with
  | none => w
  | some p =>
      if touser = true ∧ p.myConnect = true ∧ p.dead = false ∧ w.unmarked user = true then
        w.sendMessage io user (.message (sendLine text))
      else w

end Common

section Match

variable (source : Client) (mask : Str) (cap : ℕ) (text : Str)

/-- What `sendto_anywhere` sends to a server over the link `l`. -/
def matchBuf (l : Peer) : Str :=
  sendLine (':' :: ((if l.caps &&& CAP_TS6 ≠ 0 then source.idOrName else source.name.val) ++
    ' ' :: text))

def matchStep (w : Wire) (a : ℕ) : Wire :=
  match w.peers a with
  | none => w
  | some p =>
      if p.from_ ≠ source.from_ ∧ w.unmarked p.from_ = true ∧ matchMask mask p.name = true then
        match w.peers p.from_ with
        | none => w
        | some l =>
            if l.caps &&& cap ≠ 0 ∧ l.dead = false then
              (w.mark p.from_).sendMessage io p.from_ (.message (matchBuf source text l))
            else w.mark p.from_
      else w

/-- `sendto_match_servs` over the servers that are not this one. -/
def sendtoMatchServs (servers : List ℕ) : Wire :=
  servers.foldl (matchStep io source mask cap text) w.bump

end Match

end Wire

/-- What happens between and with the sends. A new client is not stamped, and nothing but a send
changes a stamp. -/
inductive WireEvent where
  | connect (a : ℕ) (p : Peer)
  | change (a : ℕ) (f : Peer → Peer)
  | exit (a : ℕ)
  | opers (operList : List ℕ)
  | channelButone (io : ℕ → ℕ → ℕ × Bool) (one : ℕ) (x : ChannelMessage) (bwSaver : Bool) (now : ℤ)
      (members : List ℕ)
  | channelRemote (io : ℕ → ℕ → ℕ × Bool) (one : ℕ) (type : MemberFlags) (caps nocaps : ℕ)
      (text : Str) (members : List (ℕ × MemberFlags))
  | commonChannelsLocal (io : ℕ → ℕ → ℕ × Bool) (user : ℕ) (touser : Bool) (text : Str)
      (channels : List (List ℕ))
  | matchServs (io : ℕ → ℕ → ℕ × Bool) (source : Client) (mask : Str) (cap : ℕ) (text : Str)
      (servers : List ℕ)

namespace WireEvent

/-- The event takes a number from the counter. -/
def bumps : WireEvent → Bool
  | connect .. | change .. | exit .. | opers .. => false
  | _ => true

end WireEvent

namespace Wire

def step (w : Wire) : WireEvent → Wire
  | .connect a p => { w with peers := Function.update w.peers a (some { p with serial := 0 }) }
  | .change a f => w.updPeer a fun p => { f p with serial := p.serial }
  | .exit a => { w with peers := Function.update w.peers a none }
  | .opers operList => { w with operList := operList }
  | .channelButone io one x bwSaver now members =>
      w.sendtoChannelButone io one x bwSaver now members
  | .channelRemote io one type caps nocaps text members =>
      w.sendtoChannelRemote io one type caps nocaps text members
  | .commonChannelsLocal io user touser text channels =>
      w.sendtoCommonChannelsLocal io user touser text channels
  | .matchServs io source mask cap text servers =>
      w.sendtoMatchServs io source mask cap text servers

end Wire

end Unirc
