import Unirc.ChannelBurst
import Unirc.Hostmask
import Unirc.Nicknames
import Unirc.Parse
import Unirc.SetChannelMode
import Unirc.UserCounts

/-!
# The introduction of a client

`sendnick_TS` of `s_serv.c` with `send_umode` of `s_user.c`, and `ms_uid` of `m_nick.c` with
`client_from_server` and `register_remote_user`.
-/

namespace Unirc

abbrev REALLEN : ℕ := 50
abbrev HOSTIPLEN : ℕ := 53

/-- `sizeof(ubuf)` in `sendnick_TS`. -/
abbrev UBUFLEN : ℕ := 12

/-- `name` and `id` of a server. -/
structure ServerIdent where
  name : Buf (HOSTLEN + 1)
  id : Buf (IDLEN + 1)
  deriving DecidableEq

/-- What is said of a client when it is introduced. -/
structure NetClient where
  name : Buf (HOSTLEN + 1)
  id : Buf (IDLEN + 1)
  hopcount : BitVec 16
  tsinfo : ℤ
  umodes : UModes
  username : Buf (USERLEN + 1)
  host : Buf (HOSTLEN + 1)
  realhost : Buf (HOSTLEN + 1)
  sockhost : Buf (HOSTIPLEN + 1)
  servicestamp : U32
  info : Buf (REALLEN + 1)
  vlinkNome : Option Str
  servptr : ServerIdent
  myClient : Bool
  ipSpoof : Bool
  hiddenAdmin : Bool
  deriving DecidableEq

section Sender

/-- The characters that `send_umode` goes through. -/
def umodeChars : Str := (List.range 128).map Char.ofNat

/-- A turn of the loop of `send_umode`: `what`, and the text so far. -/
def umodeStep (myClient : Bool) (umodes old sendmask : UModes) (st : ModeDir × Str) (c : Char) :
    ModeDir × Str :=
  match userModes c with
  | none => st
  | some flag =>
      if myClient = true ∧ flag ∉ sendmask then st
      else if flag ∈ old ∧ flag ∉ umodes then
        (.del, st.2 ++ if st.1 = .del then [c] else ['-', c])
      else if flag ∉ old ∧ flag ∈ umodes then
        (.add, st.2 ++ if st.1 = .add then [c] else ['+', c])
      else st

/-- The text that `send_umode` leaves in the buffer. -/
def sendUmode (myClient : Bool) (umodes old sendmask : UModes) : Str :=
  (umodeChars.foldl (umodeStep myClient umodes old sendmask) (.query, [])).2

namespace NetClient

variable (me : Str) (u : NetClient)

/-- What `sendnick_TS` asks of `send_umode`. -/
def umodeText : Str :=
  sendUmode u.myClient u.umodes ∅ (if u.hiddenAdmin then SEND_UMODES.erase .admin else SEND_UMODES)

/-- `ubuf` as it is sent. -/
def ubuf : Str := if u.umodeText = [] then ['+'] else u.umodeText

def sentVlink : Str := u.vlinkNome.getD me

/-- The parameters of the UID line before the last one. -/
def uidWords : List Str :=
  [u.name.val, Decimal.print (u.hopcount.toNat + 1), formatULong u.tsinfo, u.ubuf, u.username.val,
    u.host.val, if u.ipSpoof then ['0'] else u.sockhost.val, u.id.val,
    Nat.toDigits 10 u.servicestamp.toNat, u.realhost.val, u.sentVlink me]

def nickWords : List Str :=
  [u.name.val, Decimal.print (u.hopcount.toNat + 1), formatULong u.tsinfo, u.ubuf, u.username.val,
    u.host.val, u.servptr.name.val, Nat.toDigits 10 u.servicestamp.toNat, u.realhost.val,
    u.sentVlink me]

/-- Words in a row, each with the blank behind it. -/
def spaced (words : List Str) : Str := words.flatMap fun w => w ++ [' ']

def uidLine : Str :=
  ':' :: (u.servptr.id.val ++ (" UID ".toList ++ (spaced (u.uidWords me) ++ ':' :: u.info.val)))

def nickLine : Str := "NICK ".toList ++ (spaced (u.nickWords me) ++ ':' :: u.info.val)

/-- `sendnick_TS`; `send_format` cuts what is longer than a line. -/
def sendnickTS (ts6 : Bool) : Str :=
  (if u.id.val ≠ [] ∧ ts6 = true then u.uidLine me else u.nickLine me).take (IRCD_BUFSIZE - 2)

end NetClient

end Sender

section Receiver

/-- The digits of a numeral in the base that its first characters tell. -/
def readBase0 : Str → ℕ
  | '0' :: 'x' :: v | '0' :: 'X' :: v =>
      (v.takeWhile fun c => (hexDigit? c).isSome).foldl (fun n c => 16 * n + (hexDigit? c).getD 0) 0
  | '0' :: v => Nat.ofDigitChars 8 (v.takeWhile fun c => '0' ≤ c ∧ c ≤ '7') 0
  | v => Decimal.readDigits v

/-- The value of `strtoul` with base 0. -/
def strtoul0 (s : Str) : ℕ :=
  let t := s.dropWhile Decimal.isSpace
  let neg := t.head? = some '-'
  let n := readBase0 (if t.head? = some '-' ∨ t.head? = some '+' then t.tail else t)
  if 2 ^ 64 ≤ n then 2 ^ 64 - 1 else if neg then (2 ^ 64 - n) % 2 ^ 64 else n

/-- What a server knows that reads a UID line: whether it has a client of a name, and whether that
one is not registered, who has an id, which servers are behind the link, and the names of its
virtual links. -/
structure UidPeer where
  findClient : Str → Option Bool
  findId : Str → Bool
  servers : ServerIdent → Bool
  vlinks : List Str

/-- What becomes of a UID line. -/
inductive UidOutcome where
  | linkDropped | nullRead | ignored | killed | idCollision | nickCollision | ghosted
  | introduced (who : NetClient)
  deriving DecidableEq

def cleanUser (user : Str) : Bool := user.length ≤ USERLEN

def cleanHost (host : Str) : Bool := host.length ≤ HOSTLEN

namespace UidPeer

variable (p : UidPeer)

/-- `find_vlink_nome` -/
def findVlinkNome (name : Str) : Option Str := p.vlinks.find? fun mask => matchMask mask name

/-- `client_from_server` and `register_remote_user` -/
def clientFromServer (source : ServerIdent) (newts : ℤ) (nick : Buf NICKLEN)
    (hopcount umode uname uhost ip uid stamp urealhost : Str) (uvlink : Buf (HOSTLEN + 1))
    (ugecos : Buf (REALLEN + 1)) : UidOutcome :=
  if p.servers source then
    .introduced
      { name := ⟨nick.val, nick.property.trans (by decide)⟩
        id := Buf.strlcpy uid
        hopcount := BitVec.ofInt 16 (Decimal.atoi hopcount)
        tsinfo := newts
        umodes := (umode.drop 1).foldl Census.letterModes ∅
        username := Buf.strlcpy uname
        host := Buf.strlcpy uhost
        realhost := Buf.strlcpy urealhost
        sockhost := Buf.strlcpy ip
        servicestamp := BitVec.ofNat 32 (strtoul0 stamp)
        info := ugecos
        vlinkNome := p.findVlinkNome uvlink.val
        servptr := source
        myClient := false
        ipSpoof := false
        hiddenAdmin := false }
  else .ghosted

/-- `ms_uid` behind the test of `handle_command` on the number of parameters, for a line of the
server `source`. -/
def msUid (source : ServerIdent) : List Str → UidOutcome
  | unick :: hopcount :: uts :: umode :: uname :: uhost :: ip :: uid :: stamp :: urealhost ::
      vlink :: gecos =>
      if unick = [] then .ignored
      else match gecos with
        | [] => .nullRead
        | gecos :: _ =>
            let nick : Buf NICKLEN := Buf.strlcpy unick
            if cleanNickName nick.val false = false ∨ nick.val ≠ unick ∨ cleanUser uname = false ∨
                cleanHost uhost = false ∨ cleanHost urealhost = false then .killed
            else if p.findId uid then .idCollision
            else if p.findClient unick = some false then .nickCollision
            else p.clientFromServer source (Decimal.atol uts) nick hopcount umode uname uhost ip uid
              stamp urealhost (Buf.strlcpy vlink) (Buf.strlcpy gecos)
  | _ => .linkDropped

end UidPeer

end Receiver

end Unirc
