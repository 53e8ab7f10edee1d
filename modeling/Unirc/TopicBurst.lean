import Unirc.ChannelBurst
import Unirc.Parse
import Unirc.Replicas

/-!
# The topic in a burst

`send_tb` sends the topic of a channel behind its SJOIN lines, and `ms_tburst` takes it or leaves
it. Both servers of a new link send their bursts before they read anything of the other's.
-/

namespace Unirc

abbrev TOPICLEN : ℕ := 390
abbrev USERHOST_REPLYLEN : ℕ := 109

/-- The block of `allocate_topic`. -/
structure Topic where
  text : Buf (TOPICLEN + 1)
  info : Buf USERHOST_REPLYLEN
  deriving DecidableEq

/-- A channel at one of the servers, with what its bursts and their receipt depend on: the name of
the server and its settings, and the nicks in each of the SJOIN lines of the channel. -/
structure TopicSite where
  name : {s : Buf (HOSTLEN + 1) // ' ' ∉ s.val}
  ignoreBogusTs : Bool
  hideServers : Bool
  channelts : ℤ
  mode : Mode
  topic : Option Topic
  topicTime : ℤ
  nicks : List Str

/-- The parameters of an SJOIN, or a whole TBURST. -/
inductive TopicMessage where
  | sjoin (params : Str)
  | tburst (line : Str)

/-- What `ms_tburst` sends: to the members, and to servers with TBURST and with TB only. -/
structure TburstOut where
  notice : Option Str
  tburst : Str
  tb : Option Str

namespace TopicSite

variable (chname : GlobalName)

section

variable (x : TopicSite)

/-- `set_channel_topic` -/
def setChannelTopic (topic info : Str) (topicts : ℤ) : TopicSite :=
  if topic ≠ [] then
    { x with topic := some ⟨Buf.strlcpy topic, Buf.strlcpy info⟩, topicTime := topicts }
  else { x with topic := none }

def text : Str := (x.topic.map fun t => t.text.val).getD []

def info : Str := (x.topic.map fun t => t.info.val).getD []

/-- `":%s TBURST %lu %s %lu %s :"` -/
def tburstStart : Str :=
  ':' :: (x.name.val.val ++ ' ' :: ("TBURST".toList ++ ' ' :: (formatULong x.channelts ++
    ' ' :: (chname.val ++ ' ' :: (formatULong x.topicTime ++ ' ' :: (x.info ++ [' ', ':']))))))

/-- `send_tb` to a server with TBURST. -/
def sendTb : Option Str :=
  if x.topicTime ≠ 0 then some ((x.tburstStart chname ++ x.text).take (IRCD_BUFSIZE - 2)) else none

/-- The lines of a burst about the channel. -/
def burst : List TopicMessage :=
  x.nicks.map (fun nicks => .sjoin (burstLine x.channelts chname x.mode nicks)) ++
    ((x.sendTb chname).map .tburst).toList

/-- The test of `ms_tburst`. -/
def acceptRemote (remoteChannelTs remoteTopicTs : ℤ) : Bool :=
  remoteChannelTs < x.channelts ||
    (remoteChannelTs = x.channelts && remoteTopicTs > x.topicTime)

/-- `topic` and `setby`, which are empty unless there are five parameters. -/
def topicParams : List Str → Str × Str
  | [setby, topic] => (topic, setby)
  | _ => ([], [])

/-- `ms_tburst` for a message of a server called `source`. -/
def msTburst (source : Str) : List Str → TopicSite × Option TburstOut
  | ts :: chan :: time :: rest =>
      if rest = [] ∨ irccmp chan chname.val then (x, none)
      else
        let (topic, setby) := topicParams rest
        let accept := x.acceptRemote (Decimal.atol ts) (Decimal.atol time)
        let y := if accept then x.setChannelTopic topic setby (Decimal.atol time) else x
        let line (command : Str) (words : List Str) : Str :=
          ((':' :: source) ++ ' ' :: List.intercalate [' '] (command :: words ++ [':' :: topic]))
        (y, some {
          notice :=
            if accept ∧ x.text ≠ topic then
              some (((':' :: (if x.hideServers then x.name.val.val else source)) ++
                ' ' :: List.intercalate [' '] ["TOPIC".toList, chname.val, ':' :: y.text]))
            else none
          tburst := line "TBURST".toList [ts, chan, time, setby]
          tb := if rest.length = 2 ∧ topic ≠ [] then some (line "TB".toList [ts, chan, setby])
            else none })
  | _ => (x, none)

end

/-- The sender of a line. -/
def sender (line : Str) : Str := (line.drop 1).takeWhile (· ≠ ' ')

/-- A server reads a line of the other's burst. -/
def receive (m : TopicMessage) (x : TopicSite) : TopicSite :=
  match m with
  | .sjoin params =>
      match receiveSjoin x.ignoreBogusTs 0 (some (x.channelts, x.mode)) params with
      | some (channelts, mode) => { x with channelts := channelts, mode := mode }
      | none => x
  | .tburst line => (x.msTburst chname (sender line) (splitLine line).2).1

end TopicSite

open Replicas

/-- A new link of two servers that both know the channel; each has sent its burst. -/
def topicLink (chname : GlobalName) (x y : TopicSite) : Pair TopicSite TopicMessage where
  state := fun s => if s then y else x
  flight := fun s => if s then x.burst chname else y.burst chname

/-- The server `s` reads the next line, if there is one. -/
def topicStep (chname : GlobalName) (p : Pair TopicSite TopicMessage) (s : Bool) :
    Pair TopicSite TopicMessage :=
  match p.flight s with
  | [] => p
  | m :: ms => p.take (TopicSite.receive chname) s m ms

end Unirc
