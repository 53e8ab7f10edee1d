import Unirc.Bans
import Unirc.Leaving
import Unirc.RemoteJoin

/-!
# Channel MODE commands

`set_channel_mode` of `channel_mode.c` with the handlers of its table, and `m_mode` for channels.
-/

namespace Unirc

open MemberFlag SimpleMode

/-- `MODE_QUERY`, `MODE_ADD` and `MODE_DEL`. -/
inductive ModeDir where
  | query | add | del
  deriving DecidableEq, Repr

/-- The levels of `get_channel_access`. -/
inductive ChAccess where
  | notOnChan | peon | halfop | chanop | protected_ | owner | remote
  deriving DecidableEq, Repr

namespace ChAccess

def rank : ChAccess → ℤ
  | notOnChan => -1
  | peon => 0
  | halfop => 1
  | chanop => 2
  | protected_ => 3
  | owner => 4
  | remote => 5

instance : LinearOrder ChAccess := LinearOrder.lift' rank fun a b h => by
  cases a <;> cases b <;> first | rfl | cases h

end ChAccess

/-- The errors that a command reports once. -/
inductive SmErr where
  | noops | unknown | rplB | rplE | notOnChannel | rplI | notOper
  deriving DecidableEq, Repr

/-- The capabilities that a change of a list asks of a server. -/
inductive ModeCap where
  | ex | ie
  deriving DecidableEq, Repr

/-- The local users that see a change. -/
inductive ModeMems where
  | allMembers | onlyChanops | onlyServers
  deriving DecidableEq, Repr

/-- The parameter of a change: a text of its own, or one of the buffers of the channel. -/
inductive ModeArg where
  | text (s : Str)
  | key
  | forward
  deriving DecidableEq, Repr

/-- `struct ChModeChange`; the letter is gone once a later change supersedes it. -/
structure ModeChange where
  letter : Option Char
  dir : ModeDir
  caps : Option ModeCap
  mems : ModeMems
  id : Option Str
  arg : Option ModeArg
  deriving DecidableEq

/-- `c & 0x7f` -/
def lowBits (c : Char) : Char := Char.ofNat (c.toNat % 128)

def fixKey (s : Str) : Str := (s.map lowBits).filter fun c => c ≠ ':' ∧ ' ' < c ∧ c ≠ ','

/-- A NUL that `& 0x7f` leaves ends the text. -/
def fixKeyOld (s : Str) : Str :=
  ((s.map lowBits).filter fun c => c ≠ '\n' ∧ c ≠ ':' ∧ c ≠ '\x0d' ∧ c ≠ ',').takeWhile
    (· ≠ '\x00')

def fixForward (s : Str) : Str := (s.map lowBits).filter fun c => c ≠ ':' ∧ ' ' < c

def fixForwardOld (s : Str) : Str :=
  ((s.map lowBits).filter fun c => c ≠ '\n' ∧ c ≠ ':' ∧ c ≠ '\x0d').takeWhile (· ≠ '\x00')

/-- What a command is run with: `find` is `find_chasing`, `fromServer` is `IsServer(client_p)`, and
`source` is the record of the client `sourceId`. -/
structure ModeContext where
  cfg : Config
  find : Str → Option ℕ
  fromServer : Bool
  sourceId : ℕ
  source : Client
  chptr : ℕ
  alev : ChAccess

/-- `chptr->mode` -/
def Server.modeOf (s : Server) (c : ℕ) : Mode := ((s.channel? c).map Channel.mode).getD Mode.zero

/-- The state of a command: `params` holds the parameters from `parn` on. -/
structure ModeState where
  server : Server
  params : List Str
  dir : ModeDir
  errors : Finset SmErr
  modeLimit : ℕ
  simpleModesMask : Finset SimpleMode
  changes : List ModeChange

namespace ModeState

variable (st : ModeState)

def fail (e : SmErr) : ModeState := { st with errors := insert e st.errors }

def record (change : ModeChange) : ModeState := { st with changes := st.changes ++ [change] }

/-- A later `+k` or the like takes the place of the ones before. -/
def supersede (c : Char) : ModeState :=
  { st with changes := st.changes.map fun change =>
      if change.letter = some c ∧ change.dir = .add then { change with letter := none }
      else change }

def updMode (c : ℕ) (f : Mode → Mode) : ModeState :=
  { st with server := st.server.updChannel c fun ch => { ch with mode := f ch.mode } }

def mode (c : ℕ) : Mode := st.server.modeOf c

end ModeState

namespace ModeContext

variable (x : ModeContext) (st : ModeState)

/-- `MyClient(source_p) && (++mode_limit > MAXMODEPARAMS)`, and what follows where it fails. -/
def limited (k : ModeState → ModeState) : ModeState :=
  if x.source.myClient then
    if MAXMODEPARAMS < st.modeLimit + 1 then { st with modeLimit := st.modeLimit + 1 }
    else k { st with modeLimit := st.modeLimit + 1 }
  else k st

section Simple

def chmNosuch : ModeState := if .unknown ∈ st.errors then st else st.fail .unknown

/-- A member that `chm_simple` counts as not connected via SSL. -/
def someNonSsl (s : Server) (c : ℕ) : Bool :=
  (s.members c).any fun m =>
    (s.graph.links m).any fun r => (s.client? r.left).any fun who => !who.services && !who.ssl

def chmSimple (modeType : SimpleMode) (c : Char) : ModeState :=
  let mode := (st.mode x.chptr).mode
  if x.alev < .halfop ∨ (modeType = modePrivate ∧ x.alev < .chanop) then st.fail .noops
  else if modeType = modeOperOnly ∧ x.alev < .remote ∧ x.source.oper = false then
    st.fail .notOper
  else if modeType = modeChanReg ∧ x.alev < .remote ∧ x.source.services = false then
    st.fail .notOper
  else if modeType = modeSslOnly ∧ st.dir = .add ∧ x.alev < .remote ∧
      someNonSsl st.server x.chptr = true then st
  else if modeType ∈ st.simpleModesMask then st
  else
    let st := { st with simpleModesMask := insert modeType st.simpleModesMask }
    if st.dir = .add ∧ modeType ∉ mode then
      (st.updMode x.chptr fun m => { m with mode := insert modeType m.mode }).record
        ⟨some c, .add, none, .allMembers, none, none⟩
    else if st.dir = .del ∧ modeType ∈ mode then
      (st.updMode x.chptr fun m => { m with mode := m.mode.erase modeType }).record
        ⟨some c, .del, none, .allMembers, none, none⟩
    else st

end Simple

section Masks

/-- The mask handlers behind their first tests, for a list whose letter is `c`; a mask that is not
in the list is still recorded as taken out of it when `always` is set. -/
def chmMask (type : BanType) (c : Char) (caps : Option ModeCap) (mems : ModeMems) (always : Bool)
    (mask : Str) (rest : List Str) : ModeState :=
  x.limited st fun st =>
    let st := { st with params := rest }
    if x.fromServer = true ∧ ' ' ∈ mask then st
    else
      let local_ := decide (st.dir = .add) && x.source.myClient
      let arg := (Ban.parse (if local_ then collapse mask else mask)).text
      let r := if st.dir = .add then st.server.addId x.cfg x.sourceId x.chptr mask type
        else st.server.delId x.chptr mask type
      let st := { st with server := r.1 }
      if r.2 = true ∨ (st.dir = .del ∧ always = true) then
        st.record ⟨some c, st.dir, caps, mems, none, some (.text arg)⟩
      else st

def chmBan (c : Char) : ModeState :=
  match st.dir, st.params with
  | .query, _ | _, [] => if .rplB ∈ st.errors then st else st.fail .rplB
  | _, mask :: rest =>
      if x.alev < .halfop then st.fail .noops
      else x.chmMask st .ban c none .allMembers true mask rest

/-- `chm_except` and `chm_invex`: `use` is the setting of the list, `shown` the error that marks it
as shown. -/
def chmList (type : BanType) (use : Bool) (shown : SmErr) (cap : ModeCap) (c : Char) : ModeState :=
  if use = false ∧ x.source.myClient = true ∧ st.dir = .add ∧ st.params ≠ [] then
    if shown ∈ st.errors then st else st.fail shown
  else if x.alev < .halfop then st.fail .noops
  else match st.dir, st.params with
    | .query, _ | _, [] => if shown ∈ st.errors then st else st.fail shown
    | _, mask :: rest =>
        x.chmMask st type c (some cap) (if use then .onlyChanops else .onlyServers) false mask rest

def chmExcept (c : Char) : ModeState := x.chmList st .exception x.cfg.useExcept .rplE .ex c

def chmInvex (c : Char) : ModeState := x.chmList st .invex x.cfg.useInvex .rplI .ie c

end Masks

section Status

/-- The start of the status handlers: `k` goes on with the client that the parameter names and its
membership. -/
def withMember (level : ChAccess) (k : ℕ → ℕ → ModeState → ModeState) : ModeState :=
  if x.alev < level then st.fail .noops
  else match st.dir, st.params with
    | .query, _ | _, [] => st
    | _, opnick :: rest =>
        let st := { st with params := rest }
        match x.find opnick with
        | none => st
        | some targ =>
            if (st.server.client? targ).any Client.isClient then
              match st.server.findChannelLink targ x.chptr with
              | none => st.fail .notOnChannel
              | some member => k targ member st
            else st

/-- Whether the member has the flag as the command wants it. -/
def redundant (member : ℕ) (flag : MemberFlag) : Bool :=
  (flag ∈ st.server.flags member) == decide (st.dir = .add)

/-- The flags of a member after the change; `+v` does not undo a deop. -/
def giveFlag (dir : ModeDir) (flag : MemberFlag) (flags : MemberFlags) : MemberFlags :=
  if dir = .add then
    if flag = chflVoice then insert flag flags else (insert flag flags).erase chflDeopped
  else flags.erase flag

def giveStatus (letter : Char) (flag : MemberFlag) (targ member : ℕ) : ModeState :=
  let who := st.server.client? targ
  { st.record ⟨some letter, st.dir, none, .allMembers, who.map (·.id.val),
      who.map fun who => .text who.name.val⟩ with
    server := st.server.updFlags member (giveFlag st.dir flag) }

def chmOwner : ModeState :=
  x.withMember st .owner fun targ member st => x.limited st fun st =>
    if redundant st member chflOwner then st else giveStatus st 'q' chflOwner targ member

def chmProtect : ModeState :=
  x.withMember st .protected_ fun targ member st =>
    if x.alev < .owner ∧ x.sourceId ≠ targ then st.fail .noops
    else x.limited st fun st =>
      if redundant st member chflProtected then st
      else giveStatus st 'a' chflProtected targ member

/-- `chm_op`, `chm_hop` and `chm_voice`: the flag of a service, or of another member who is owner or
protected, is not taken by a user below owner. -/
def chmRank (level : ChAccess) (letter : Char) (flag : MemberFlag) : ModeState :=
  x.withMember st level fun targ member st => x.limited st fun st =>
    if redundant st member flag then st
    else if st.dir = .del ∧ (st.server.client? targ).any Client.services = true ∧
        x.alev < .remote then st.fail .noops
    else if st.dir = .del ∧ chflOwner ∈ st.server.flags member ∧ x.alev < .owner ∧
        x.sourceId ≠ targ then st.fail .noops
    else if st.dir = .del ∧ chflProtected ∈ st.server.flags member ∧ x.alev < .owner ∧
        x.sourceId ≠ targ then st.fail .noops
    else giveStatus st letter flag targ member

def chmOp : ModeState := x.chmRank st .chanop 'o' chflChanop

/-- On a channel that is `+p` half-operators are not made by half-operators. -/
def chmHop : ModeState :=
  x.chmRank st (if modePrivate ∈ (st.mode x.chptr).mode then .chanop else .halfop) 'h' chflHalfop

def chmVoice : ModeState := x.chmRank st .halfop 'v' chflVoice

end Status

section Params

/-- A parameter of `+l` and `+f`, and of `+k` and `+F`. -/
def recordParam (c : Char) (arg : ModeArg) : ModeState :=
  (st.supersede c).record ⟨some c, .add, none, .allMembers, none, some arg⟩

def recordUnset (c : Char) (arg : Option Str) : ModeState :=
  st.record ⟨some c, .del, none, .allMembers, none, arg.map .text⟩

def chmLimit (c : Char) : ModeState :=
  if x.alev < .halfop then st.fail .noops
  else match st.dir, st.params with
    | .add, lstr :: rest =>
        let st := { st with params := rest }
        let limit := Decimal.atoi lstr
        if limit ≤ 0 then st
        else (recordParam st c (.text (Decimal.print limit))).updMode x.chptr fun m =>
          { m with limit := BitVec.ofInt 32 limit }
    | .del, _ =>
        if (st.mode x.chptr).limit = 0 then st
        else recordUnset (st.updMode x.chptr fun m => { m with limit := 0 }) c none
    | _, _ => st

def chmFloodtime (c : Char) : ModeState :=
  if x.alev < .halfop then st.fail .noops
  else match st.dir, st.params with
    | .add, lstr :: rest =>
        let st := { st with params := rest }
        match parseFlood lstr with
        | none => st
        | some (xxi, xyi) =>
            if 99 < xxi ∨ 99 < xyi ∨ xxi ≤ 1 ∨ xyi = 0 then st
            else (recordParam st c (.text lstr)).updMode x.chptr fun m =>
              { m with msgs := BitVec.ofInt 32 xxi, per := BitVec.ofInt 32 xyi }
    | .del, _ =>
        if (st.mode x.chptr).msgs = 0 then st
        else recordUnset (st.updMode x.chptr fun m => { m with msgs := 0, per := 0 }) c none
    | _, _ => st

def chmForward (c : Char) : ModeState :=
  if x.alev < .halfop then st.fail .noops
  else match st.dir, st.params with
    | .add, text :: rest =>
        let st := { st with params := rest }
        let forward := if x.source.myClient then fixForward text else fixForwardOld text
        if forward = [] then st
        else if (commaTokens forward).all fun chan =>
            checkChannelName x.cfg.disableFakeChannels chan (!x.source.oper) then
          recordParam (st.updMode x.chptr fun m => { m with forward := Buf.strlcpy forward }) c
            .forward
        else st
    | .del, params =>
        let st := { st with params := params.tail }
        if (st.mode x.chptr).forward.val = [] then st
        else recordUnset (st.updMode x.chptr fun m => { m with forward := Buf.empty }) c (some [])
    | _, _ => st

def chmKey (c : Char) : ModeState :=
  if x.alev < .halfop then st.fail .noops
  else match st.dir, st.params with
    | .add, text :: rest =>
        let st := { st with params := rest }
        let key := if x.source.myClient then fixKey text else fixKeyOld text
        if key = [] then st
        else recordParam (st.updMode x.chptr fun m => { m with key := Buf.strlcpy key }) c .key
    | .del, params =>
        let st := { st with params := params.tail }
        if (st.mode x.chptr).key.val = [] then st
        else recordUnset (st.updMode x.chptr fun m => { m with key := Buf.empty }) c (some ['*'])
    | _, _ => st

end Params

/-- `ModeTable`. -/
def modeTable (c : Char) : ModeState :=
  match c with
  | 'B' => x.chmSimple st modeBwSaver c
  | 'C' => x.chmSimple st modeStripColor c
  | 'E' => x.chmSimple st modeSslOnly c
  | 'F' => x.chmForward st c
  | 'I' => x.chmInvex st c
  | 'M' => x.chmSimple st modeModReg c
  | 'N' => x.chmSimple st modeNoNotices c
  | 'O' => x.chmSimple st modeOperOnly c
  | 'R' => x.chmSimple st modeRegOnly c
  | 'S' => x.chmSimple st modeNoSpam c
  | 'a' => x.chmProtect st
  | 'b' => x.chmBan st c
  | 'c' => x.chmSimple st modeNoCtrl c
  | 'd' => x.chmSimple st modeNoFlood c
  | 'e' => x.chmExcept st c
  | 'f' => x.chmFloodtime st c
  | 'h' => x.chmHop st
  | 'i' => x.chmSimple st modeInviteOnly c
  | 'k' => x.chmKey st c
  | 'l' => x.chmLimit st c
  | 'm' => x.chmSimple st modeModerated c
  | 'n' => x.chmSimple st modeNoPrivMsgs c
  | 'o' => x.chmOp st
  | 'p' => x.chmSimple st modePrivate c
  | 'q' => x.chmOwner st
  | 'r' => x.chmSimple st modeChanReg c
  | 's' => x.chmSimple st modeSecret c
  | 't' => x.chmSimple st modeTopicLimit c
  | 'v' => x.chmVoice st
  | _ => chmNosuch st

/-- One character of the mode text. -/
def modeLetter (c : Char) : ModeState :=
  match c with
  | '+' => { st with dir := .add }
  | '-' => { st with dir := .del }
  | '=' => { st with dir := .query }
  | _ => x.modeTable st c

end ModeContext

namespace Server

variable (cfg : Config) (s : Server)

/-- The tests of `get_channel_access` on the flags of a member. -/
def memberAccess (flags : MemberFlags) : ChAccess :=
  if chflOwner ∈ flags then .owner
  else if chflProtected ∈ flags then .protected_
  else if chflChanop ∈ flags then .chanop
  else if chflHalfop ∈ flags then .halfop
  else .peon

/-- `get_channel_access`. -/
def getChannelAccess (source : Client) (member : Option ℕ) : ChAccess :=
  if source.myClient = false then .remote
  else member.elim .notOnChan fun m => memberAccess (s.flags m)

/-- `set_channel_mode`: what the command leaves, with the changes to be sent. -/
def setChannelMode (find : Str → Option ℕ) (fromServer : Bool) (a : ℕ) (source : Client) (c : ℕ)
    (member : Option ℕ) (modes : Str) (params : List Str) : ModeState :=
  let x : ModeContext := ⟨cfg, find, fromServer, a, source, c, s.getChannelAccess source member⟩
  modes.foldl x.modeLetter ⟨s, params, .add, ∅, 0, ∅, []⟩

/-- `m_mode` for a channel, with the parameters behind the command. -/
def mMode (find : Str → Option ℕ) (fromServer : Bool) (a : ℕ) (parv : List Str) :
    Server :=
  match s.client? a, parv with
  | some source, name :: modes :: params =>
      if checkChannelName cfg.disableFakeChannels name source.myConnect = false then s
      else match s.hashFindChannel name with
        | none => s
        | some c =>
            if source.isClient = false ∨ source.services = true then
              (s.setChannelMode cfg find fromServer a source c none modes params).server
            else
              let member := s.findChannelLink a c
              if s.hasMemberFlags member {chflDeopped} then s
              else (s.setChannelMode cfg find fromServer a source c member modes params).server
  | _, _ => s

end Server

end Unirc
