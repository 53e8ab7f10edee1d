import Unirc.BuildOrder
import Unirc.BurstMembers
import Unirc.NetworkTree
import Unirc.TopicBurst
import Unirc.UidLine

/-!
# The burst to a new link

`server_estab`, `burst_all` and `burst_members` of `s_serv.c`. The servers are sent in the order
in which they came, the users before the first channel that they are on, and those who are on none
at the end; users are marked when their turn has come, and the marks are taken away with the last
pass over the clients.
-/

namespace Unirc

/-- What of a client is only said when it is introduced. -/
structure Profile where
  hopcount : BitVec 16
  umodes : UModes
  servicestamp : U32
  info : Buf (REALLEN + 1)
  vlinkNome : Option Str
  hiddenAdmin : Bool
  away : Str

structure ChannelTopic where
  topic : Option Topic
  time : ℤ

/-- The capabilities that decide what a burst says of channels. -/
structure BurstCaps where
  ex : Bool
  ie : Bool
  tburst : Bool
  tb : Bool
  eob : Bool

/-- The lines of a burst, with what they are about. -/
inductive BurstLine where
  | server (a : ℕ) (text : Str)
  | user (a : ℕ) (text : Str)
  | away (a : ℕ) (text : Str)
  | members (c : ℕ) (text : Str)
  | masks (c : ℕ) (text : Str)
  | topic (c : ℕ) (text : Str)
  | cburst (c : ℕ) (text : Str)
  | eob (text : Str)
  | ping (text : Str)
  deriving DecidableEq

/-- `hub` and `hideServers` are settings of the server, `topicwho` is `burst_topicwho`. The flag
`FLAGS_BURSTED` of each client is `bursted`. -/
structure BurstState where
  net : Network
  profile : ℕ → Profile
  topic : ℕ → ChannelTopic
  caps : ℕ → BurstCaps
  hub : Bool
  hideServers : Bool
  topicwho : Bool
  bursted : ℕ → Bool

namespace Network

variable (n : Network)

/-- The record of `me`. -/
def self : Client := (n.client? n.me).getD (Client.make [] false true)

/-- What `server_estab` makes of a connection, with the flags of the new server. -/
def newServer (link : ℕ) (p : Pending) (hidden services : Bool) : Client :=
  { Client.make p.name.val false true with
    name := p.name
    id := p.id
    host := p.host
    from_ := link
    servptr := n.me
    hidden := hidden
    services := services }

/-- The lists and tables that `server_estab` files the connection in. -/
def enterServer (link : ℕ) (p : Pending) (hidden services : Bool) : Network :=
  { n with
    core := ({ n.core with
        graph := n.core.graph.setLeft link (some (n.newServer link p hidden services)) } :
      Server).updClient n.me fun k => { k with servers := link :: k.servers }
    pending := Function.update n.pending link none
    clientTable := link :: n.clientTable
    idTable := if (n.link link).caps.ts6 then link :: n.idTable else n.idTable
    globalServList := link :: n.globalServList
    servList := link :: n.servList
    unknownList := n.unknownList.erase link
    depServers := Function.update n.depServers link 1
    depUsers := Function.update n.depUsers link 0 }

def nameOf (a : ℕ) : Str := (n.client? a).elim [] fun k => k.name.val

end Network

namespace BurstState

section

variable (s : BurstState)

/-- The server is hidden from a link, or is `me`: `match(my_name_for_link(conf), name)`. -/
def masked (link a : ℕ) : Bool := matchMask (s.net.myNameForLink link) (s.net.nameOf a)

/-- `":%s SID %s %d %s :%s%s"` or `":%s SERVER %s %d :%s%s"` -/
def serverLine (ts6 : Bool) (source : Str) (k : Client) (hops : ℕ) (info : Str) : Str :=
  let tail := ' ' :: ':' :: ((if k.hidden then "(H) ".toList else []) ++ info)
  let hops := Decimal.print (hops : ℤ)
  if ts6 && k.hasId then
    ':' :: (source ++ " SID ".toList ++ k.name.val ++ ' ' :: (hops ++ ' ' :: (k.id.val ++ tail)))
  else ':' :: (source ++ " SERVER ".toList ++ k.name.val ++ ' ' :: (hops ++ tail))

/-- How a server is introduced to a link. -/
def introLine (link a : ℕ) (k : Client) : Str :=
  let ts6 := (s.net.link link).caps.ts6
  serverLine ts6 (((s.net.client? k.servptr).map (·.sentName ts6)).getD []) k
    ((s.profile a).hopcount.toNat + 1) (s.profile a).info.val

/-- The new server is sent to the other links. -/
def announce (link : ℕ) : BurstState :=
  match s.net.client? link with
  | none => s
  | some k =>
      let lines := s.net.servList.filterMap fun peer =>
        if peer = link then none
        else if ((s.net.link peer).sconf.isSome && s.masked peer link) then none
        else
          let ts6 := (s.net.link peer).caps.ts6
          let source := if ts6 && k.hasId then s.net.self.id.val else s.net.self.name.val
          some (peer, serverLine ts6 source k 2 (s.profile link).info.val)
      { s with net := { s.net with sent := s.net.sent ++ lines } }

/-- What `server_estab` sends of a server. -/
def introduceServer (link a : ℕ) : Option BurstLine :=
  match s.net.client? a with
  | none => none
  | some k =>
      if k.from_ = link then none
      else if s.masked link a then none
      else some (.server a (s.introLine link a k))

/-- The walk backwards over `global_serv_list`. -/
def introduceServers (link : ℕ) : List BurstLine :=
  s.net.globalServList.reverse.filterMap (s.introduceServer link)

def netClient (k : Client) (p : Profile) : NetClient where
  name := k.name
  id := k.id
  hopcount := p.hopcount
  tsinfo := k.tsinfo
  umodes := p.umodes
  username := Buf.strlcpy k.username
  host := Buf.strlcpy k.host
  realhost := Buf.strlcpy k.realhost
  sockhost := Buf.strlcpy k.sockhost
  servicestamp := p.servicestamp
  info := p.info
  vlinkNome := p.vlinkNome
  servptr := ((s.net.client? k.servptr).map fun f => ⟨f.name, f.id⟩).getD ⟨Buf.empty, Buf.empty⟩
  myClient := k.myClient
  ipSpoof := k.ipSpoof
  hiddenAdmin := p.hiddenAdmin

/-- The text of `sendnick_TS`. -/
def nickText (link a : ℕ) (k : Client) : Str :=
  (s.netClient k (s.profile a)).sendnickTS s.net.myName (s.net.link link).caps.ts6

/-- `sendnick_TS` -/
def sendnickTS (link a : ℕ) : List BurstLine :=
  match s.net.client? a with
  | none => []
  | some k =>
      if k.isClient then
        .user a (s.nickText link a k) ::
          if (s.net.link link).sconf.any Sconf.awayBurst = true ∧ (s.profile a).away ≠ [] then
            [.away a (':' :: (k.name.val ++ " AWAY :".toList ++ (s.profile a).away))]
          else []
      else []

/-- The clients of `chptr->members`. -/
def memberClients (c : ℕ) : List ℕ := (s.net.core.burstMembers c).map Prod.fst

/-- `send_channel_modes` -/
def sendChannelModes (link c : ℕ) : List BurstLine :=
  match s.net.core.channel? c with
  | none => []
  | some ch =>
      if ch.chname.val.head? ≠ some '#' then []
      else
        let ts6 := (s.net.link link).caps.ts6
        let list (t : BanType) : List BurstLine :=
          (sendModeList ts6 (modeListStart ts6 s.net.self.name.val s.net.self.id.val ch
            (Server.banLetter t)) (Server.banLetter t) (ch.bans t)).map (.masks c)
        (s.net.core.burstMemberLines c s.net.self ts6 ch).map (.members c) ++ list .ban ++
          (if (s.caps link).ex then list .exception else []) ++
          (if (s.caps link).ie then list .invex else [])

/-- `send_tb`; a string that is not there is printed as `(null)`. -/
def sendTb (link c : ℕ) : List BurstLine :=
  match s.net.core.channel? c with
  | none => []
  | some ch =>
      let t := s.topic c
      let start (command : Str) (words : List Str) : Str :=
        ':' :: (s.net.myName ++ ' ' :: List.intercalate [' '] (command :: words ++
          [':' :: (t.topic.map fun x => x.text.val).getD []]))
      if t.time = 0 then []
      else if (s.caps link).tburst then
        [.topic c (start "TBURST".toList [formatULong ch.channelts, ch.chname.val,
          formatULong t.time, (t.topic.map fun x => x.info.val).getD []])]
      else if (s.caps link).tb then
        if s.topicwho then
          [.topic c (start "TB".toList [ch.chname.val, formatULong t.time,
            (t.topic.map fun x => x.info.val).getD "(null)".toList])]
        else [.topic c (start "TB".toList [ch.chname.val, formatULong t.time])]
      else []

end

/-- The loops of `burst_all` write lines and set marks. -/
structure Pass where
  bursted : ℕ → Bool
  lines : List BurstLine

section

variable (s : BurstState)

/-- A turn of the loop of `burst_members`. -/
def burstMember (link : ℕ) (p : Pass) (a : ℕ) : Pass :=
  if p.bursted a then p
  else
    ⟨Function.update p.bursted a true,
      p.lines ++ if s.net.fromOf a = link then [] else s.sendnickTS link a⟩

/-- A turn of the first loop of `burst_all`. -/
def burstChannel (link : ℕ) (p : Pass) (c : ℕ) : Pass :=
  if s.net.core.members c = [] then p
  else
    let q := (s.memberClients c).foldl (s.burstMember link) p
    ⟨q.bursted, q.lines ++ (s.sendChannelModes link c ++ s.sendTb link c)⟩

/-- A turn of the second loop. -/
def burstRest (link : ℕ) (p : Pass) (a : ℕ) : Pass :=
  ⟨Function.update p.bursted a false,
    p.lines ++
      if p.bursted a = true ∨ s.net.fromOf a = link then [] else s.sendnickTS link a⟩

def burstAll (link : ℕ) (p : Pass) : Pass :=
  let q := s.net.globalClientList.foldl (s.burstRest link)
    (s.net.core.globalChannelList.foldl (s.burstChannel link) p)
  ⟨q.bursted, q.lines ++
    if (s.caps link).eob then
      [.eob (':' :: (s.net.self.sentName (s.net.link link).caps.ts6 ++ " EOB".toList))]
    else []⟩

/-- `cjoin_all` -/
def cjoinAll : List BurstLine :=
  s.net.core.globalChannelList.filterMap fun c => (s.net.core.channel? c).map fun ch =>
    .cburst c (':' :: (s.net.myName ++ " CBURST ".toList ++ ch.chname.val))

/-- `server_burst` -/
def serverBurst (link : ℕ) (p : Pass) : Pass :=
  let q :=
    if (s.net.link link).caps.ll then
      if s.hub then p
      else
        let q := s.burstAll link p
        ⟨q.bursted, q.lines ++ s.cjoinAll⟩
    else s.burstAll link p
  ⟨q.bursted, q.lines ++
    [.ping ("PING :".toList ++ s.net.self.sentName (s.net.link link).caps.ts6)]⟩

def exitLink (link : ℕ) (comment : Str) : BurstState :=
  { s with net := s.net.exitClient s.hideServers link s.net.me false comment }

/-- `server_estab` for a connection, with what it sends of the network to it. -/
def serverEstab (link : ℕ) (hidden services : Bool) : BurstState × List BurstLine :=
  match s.net.pending link with
  | none => (s, [])
  | some p =>
      if (s.net.link link).sconf.isNone then (s.exitLink link "Lost connect{} block!".toList, [])
      else if s.hub = false ∧ s.net.servList ≠ [] then
        ({ s with net := s.net.sendtoOne link "ERROR :I'm a leaf not a hub".toList }.exitLink link
          "I'm a leaf".toList, [])
      else
        let t := { s with net := s.net.enterServer link p hidden services }.announce link
        let q := t.serverBurst link ⟨t.bursted, t.introduceServers link⟩
        ({ t with bursted := q.bursted }, q.lines)

end

end BurstState

end Unirc
