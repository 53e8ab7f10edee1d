import Mathlib.Data.Finset.Basic
import Unirc.IpTable
import Unirc.Match
import Unirc.UserHosts

/-!
# Users and what is counted about them

The clients that a server knows, with their user modes, and the numbers kept beside
them: the global counters, the userhost table and the connections of each address.
-/

namespace Unirc

/-- The bits of `umodes`, one for each `UMODE_*` constant. -/
inductive UMode where
  | servnotice | rej | skill | full | spy | debug | nchange | wallop | operwall | invisible
  | bots | unauth | locops | deaf | cloak | ssl | regnick | regonly | cconn | hidechannels
  | gringo | zombie | oper | admin | netadmin | sadmin | soper | helper | vadmin | voper
  deriving DecidableEq, Repr

abbrev UModes := Finset UMode

/-- The table `user_modes`. -/
def userModes : Char → Option UMode
  | 'A' => some .admin
  | 'B' => some .gringo
  | 'D' => some .deaf
  | 'N' => some .netadmin
  | 'O' => some .soper
  | 'R' => some .regonly
  | 'S' => some .ssl
  | 'V' => some .vadmin
  | 'Z' => some .zombie
  | 'a' => some .sadmin
  | 'b' => some .bots
  | 'c' => some .cconn
  | 'd' => some .debug
  | 'f' => some .full
  | 'h' => some .helper
  | 'i' => some .invisible
  | 'j' => some .rej
  | 'k' => some .skill
  | 'l' => some .locops
  | 'n' => some .nchange
  | 'o' => some .oper
  | 'p' => some .hidechannels
  | 'r' => some .regnick
  | 's' => some .servnotice
  | 'u' => some .unauth
  | 'v' => some .voper
  | 'w' => some .wallop
  | 'x' => some .cloak
  | 'y' => some .spy
  | 'z' => some .operwall
  | _ => none

def SEND_UMODES : UModes :=
  {.invisible, .oper, .wallop, .spy, .admin, .cloak, .ssl, .regnick, .regonly, .netadmin,
    .hidechannels, .gringo, .zombie, .helper, .sadmin, .soper, .cconn, .vadmin, .voper}

/-- The oper flags that the mode commands read. -/
structure OperFlags where
  operN : Bool
  operAdmin : Bool
  operHiddenAdmin : Bool
  deriving DecidableEq

def OperFlags.none : OperFlags := ⟨false, false, false⟩

/-- An auth block, as far as a connection goes through it. `spoof` is the host that it
gives, `classPtr` its class. -/
structure AuthBlock where
  classPtr : Option ℕ
  exemptLimits : Bool
  noTilde : Bool
  needIdentd : Bool
  spoof : Option Str
  deriving DecidableEq

structure ClassItem where
  maxPerIp : ℕ
  maxLocal : ℕ
  maxGlobal : ℕ
  maxIdent : ℕ

/-- A client that is not a server. `isClient` is set once it is registered. -/
structure User where
  id : ℕ
  myConnect : Bool
  isClient : Bool
  gotId : Bool
  username : Buf (USERLEN + 1)
  host : Buf (HOSTLEN + 1)
  realhost : Buf (HOSTLEN + 1)
  sockhost : Str
  ip : IpAddr
  umodes : UModes
  userHost : Bool
  ipHash : Bool
  ipSpoof : Bool
  operFlags : OperFlags
  iline : Option AuthBlock

namespace User

def isOper (u : User) : Bool := decide (.oper ∈ u.umodes)

def isInvisible (u : User) : Bool := decide (.invisible ∈ u.umodes)

def myClient (u : User) : Bool := u.myConnect && u.isClient

end User

/-- The settings that registration and mode commands read. -/
structure CensusConfig where
  randomKey : U32
  ipLimits : IpLimits
  classes : ℕ → ClassItem
  proxys : List Str
  ipbrs : List Str
  makeVirthost : Str → Str
  enableCloakSystem : Bool
  invisibleOnConnect : Bool
  dotsInIdent : ℕ
  operOnlyUmodes : UModes

/-- `find_proxy` -/
def CensusConfig.findProxy (cfg : CensusConfig) (host : Str) : Bool :=
  cfg.proxys.any fun mask => matchMask mask host

/-- `find_ipbr` -/
def CensusConfig.findIpbr (cfg : CensusConfig) (host : Str) : Bool :=
  cfg.ipbrs.any fun mask => matchMask mask host

structure Census where
  users : List User
  userhosts : UserHostTable
  ips : IpTable
  total : ℤ
  invisi : ℤ
  oper : ℤ
  localCount : ℤ

namespace Census

def init : Census := ⟨[], .empty, .empty, 0, 0, 0, 0⟩

variable (cfg : CensusConfig) (s : Census)

def user? (id : ℕ) : Option User := Keyed.get? User.id id s.users

def modifyUser (id : ℕ) (f : User → User) : Census :=
  { s with users := Keyed.modify User.id id f s.users }

/-- `exit_client` and `exit_one_client` for a client that is not a server. -/
def exitClient (now : ℤ) (id : ℕ) : Census :=
  match s.user? id with
  | none => s
  | some u =>
      { users := Keyed.remove User.id id s.users
        userhosts :=
          if u.userHost then
            s.userhosts.deleteUserHost cfg.randomKey u.username.val u.realhost.val !u.myConnect
          else s.userhosts
        ips := if u.myConnect && u.ipHash then s.ips.removeOne cfg.ipLimits now u.ip else s.ips
        total := if u.isClient then s.total - 1 else s.total
        invisi := if u.isClient && u.isInvisible then s.invisi - 1 else s.invisi
        oper := if u.isClient && u.isOper then s.oper - 1 else s.oper
        localCount := if u.myClient then s.localCount - 1 else s.localCount }

end Census

end Unirc
