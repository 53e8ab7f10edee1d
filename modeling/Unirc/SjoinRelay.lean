import Unirc.MemberRoundTrip
import Unirc.SetChannelMode

/-!
# The relay of SJOIN

What `ms_sjoin` sends on: the lines that are cut from `nick_buf` or `uid_buf`, and the MODE lines
of `remove_ban_list`, which take the masks of a channel that lost from servers without TS6.
-/

namespace Unirc

open MemberFlag

/-- A word of SJOIN that is not skipped: the client it names and the flags in front. -/
structure SjoinMember where
  client : ℕ
  who : Client
  flags : MemberFlags

/-- `nick_prefix` and `uid_prefix` -/
def sjoinPrefix (flags : MemberFlags) : Str :=
  (nickPrefixes.filter fun p => p.2 ∈ flags).map Prod.fst

def sjoinWord (ts6 keepNewModes : Bool) (x : SjoinMember) : Str :=
  (if keepNewModes then sjoinPrefix x.flags else []) ++ x.who.sentName ts6

/-- `":%s SJOIN %lu %s %s %s:"` -/
def sjoinStart (sender : Str) (tstosend : ℤ) (chname : Str) (modes : Str × Str) : Str :=
  ':' :: (sender ++ " SJOIN ".toList ++ formatULong tstosend ++ ' ' :: (chname ++
    ' ' :: (modes.1 ++ ' ' :: (modes.2 ++ [':']))))

/-- `nick_buf` or `uid_buf` up to the cursor, behind the lines that were sent from it. -/
structure SjoinBuf where
  sent : List Str
  buf : Str

def SjoinBuf.add (start : Str) (b : SjoinBuf) (word : Str) : SjoinBuf :=
  if IRCD_BUFSIZE - 2 < b.buf.length + word.length then
    ⟨b.sent ++ [b.buf], start ++ (word ++ [' '])⟩
  else ⟨b.sent, b.buf ++ (word ++ [' '])⟩

/-- What a server on the other end of a link takes: `CAP_TS6`, `CAP_EX` and `CAP_IE`. -/
structure LinkCaps where
  ts6 : Bool
  ex : Bool
  ie : Bool

def LinkCaps.takes (caps : LinkCaps) : BanType → Bool
  | .ban => true
  | .exception => caps.ex
  | .invex => caps.ie

/-- The variables of `remove_ban_list`: `cur_len`, the letters in `lmodebuf`, `lparabuf` and
`count`. -/
structure BanRemoval where
  curLen : ℕ
  letters : Str
  pbuf : Str
  count : ℕ

/-- `":%s MODE %s -"` -/
def banRemovalStart (name chname : Str) : Str :=
  ':' :: (name ++ ' ' :: ("MODE".toList ++ ' ' :: (chname ++ [' ', '-'])))

namespace BanRemoval

def init (start : Str) : BanRemoval := ⟨start.length, [], [], 0⟩

/-- `banptr->len + 4` -/
def plen (ban : Ban) : ℕ := ban.name.length + ban.username.length + ban.host.length + 4

/-- The buffers are sent before a ban is added. -/
def Full (b : BanRemoval) (ban : Ban) : Prop :=
  MAXMODEPARAMS ≤ b.count ∨ IRCD_BUFSIZE - 2 < b.curLen + 1 + (plen ban - 1)

instance (b : BanRemoval) (ban : Ban) : Decidable (Full b ban) := by
  unfold Full
  infer_instance

def add (flag : Char) (b : BanRemoval) (ban : Ban) : BanRemoval where
  curLen := b.curLen + plen ban
  letters := b.letters ++ [flag]
  pbuf := b.pbuf ++ (ban.text ++ [' '])
  count := b.count + 1

/-- `lmodebuf` holds the start of the line and the letters. -/
def InBuffer (start : Str) (b : BanRemoval) : Prop := (start ++ b.letters).length < MODEBUFLEN

instance (start : Str) (b : BanRemoval) : Decidable (InBuffer start b) := by
  unfold InBuffer
  infer_instance

def line (start : Str) (b : BanRemoval) : Str := start ++ b.letters ++ ' ' :: b.pbuf.dropLast

/-- The loop of `remove_ban_list`: the buffers that are sent. -/
def loop (start : Str) (flag : Char) : BanRemoval → List Ban → List BanRemoval
  | b, [] => [b]
  | b, ban :: bans =>
      if b.Full ban then b :: loop start flag ((init start).add flag ban) bans
      else loop start flag (b.add flag ban) bans

end BanRemoval

/-- `remove_ban_list`, unless the list is empty. -/
def removeBanList (start : Str) (flag : Char) (bans : List Ban) : List BanRemoval :=
  if bans = [] then [] else BanRemoval.loop start flag (BanRemoval.init start) bans

namespace Server

variable (cfg : Config) (s : Server)

/-- The client of a word with the flags, unless the word is skipped. -/
def sjoinMember (find : Str → Option ℕ) (link : ℕ) (word : Str) : Option SjoinMember :=
  (find (readPrefixes word).2).bind fun a => (s.client? a).bind fun who =>
    if who.from_ = link ∧ who.isClient = true then some ⟨a, who, (readPrefixes word).1⟩ else none

def sjoinMembers (find : Str → Option ℕ) (link : ℕ) (nicks : Str) : List SjoinMember :=
  (nickWords nicks).filterMap (s.sjoinMember find link)

/-- The MODE lines that a server with `caps` gets when the lists of a channel are removed, where
`name` is that of `client_p`; none when `lmodebuf` overflows. -/
def banRemovalLines (name : Str) (ch : Channel) (caps : LinkCaps) : Option (List Str) :=
  let start := banRemovalStart name ch.chname.val
  let removals t := removeBanList start (banLetter t) (ch.bans t)
  if ∀ t ∈ [BanType.ban, .exception, .invex], ∀ b ∈ removals t, b.InBuffer start then
    some ([BanType.ban, .exception, .invex].flatMap fun t =>
      if caps.ts6 = false ∧ caps.takes t = true then (removals t).map (BanRemoval.line start)
      else [])
  else none

/-- What `ms_sjoin` sends to a server with `caps`, from the merge on, which changes neither clients
nor memberships. -/
def sjoinLines (find : Str → Option ℕ) (link : ℕ) (source : Client) (h : SjoinHeader)
    (isnew : Bool) (c : ℕ) (ch : Channel) (caps : LinkCaps) : Option (List Str) :=
  let v := tsVerdict isnew (checkBogusTs cfg.ignoreBogusTs h.newts ch.channelts) ch.channelts
  let mode := v.merge h.mode ch.mode
  let modes := sjoinRelayModes h v mode ch.mode
  if sjoinTooLong (sjoinRelayLength source v.tstosend ch.chname.val modes) then some []
  else
    let start := sjoinStart (source.sentName caps.ts6) v.tstosend ch.chname.val modes
    let b := ((s.sjoinMembers find link h.nicks).map (sjoinWord caps.ts6 v.keepNewModes)).foldl
      (SjoinBuf.add start) ⟨[], start⟩
    let s := (nickWords h.nicks).foldl
      (fun s word => s.sjoinNick find link c v.keepNewModes word) s
    if s.members c = [] ∧ isnew then some b.sent
    else if h.nicks = [] then some b.sent
    else if source.hasId ∧ v.keepOurModes = false then
      ((s.client? link).bind fun up => banRemovalLines up.name.val ch caps).map fun removals =>
        b.sent ++ b.buf.dropLast :: removals
    else some (b.sent ++ [b.buf.dropLast])

/-- The lines that a server with `caps` gets from `ms_sjoin`. `send_format` cuts what is longer
than a line. -/
def sjoinRelay (now : ℤ) (find : Str → Option ℕ) (link a : ℕ) (parv : List Str) (caps : LinkCaps) :
    Option (List Str) :=
  match s.client? a, parseSjoin parv with
  | some source, some h =>
      if source.isClient then some []
      else
        let (s', c, isnew) := s.findOrMake now h.chname
        match s'.channel? c with
        | some ch => (s'.sjoinLines cfg find link source h isnew c ch caps).map
            (List.map (List.take (IRCD_BUFSIZE - 2)))
        | none => some []
  | _, _ => some []

end Server

end Unirc
