import Mathlib.Data.Finset.Basic
import Mathlib.Data.Finset.SDiff
import Mathlib.Logic.Function.Basic
import Unirc.Match

/-!
# Connect blocks for a peer

`check_server` of `s_serv.c` looks for a connect block for a server that introduces itself, attaches
it with the hub and leaf items of that name, clears the capabilities that the block does not have,
and gives a block that has no address yet that of the peer.
-/

namespace Unirc

/-- The capabilities of a link that a connect block decides on, and the others. -/
inductive LinkCap
  | ll | zip | enc | tb | tburst | other (bit : ℕ)
  deriving DecidableEq

inductive AddressFamily
  | inet | inet6
  deriving DecidableEq

/-- `struct irc_ssaddr`, where the addresses of the two families lie in different bytes. -/
structure Ssaddr where
  family : ℕ
  port : ℕ
  sinAddr : ℕ
  sin6Addr : ℕ
  deriving DecidableEq

def INADDR_NONE : ℕ := 0xffffffff

/-- What is loaded of a connect block. -/
structure ConnectBlock where
  name : Str
  host : Str
  passwd : Option Str
  encrypted : Bool
  cryptLink : Bool
  rsaPublicKey : Bool
  lazyLink : Bool
  compressed : Bool
  topicBurst : Bool
  illegal : Bool
  aftype : AddressFamily
  classPtr : ℕ

/-- The connect blocks of the configuration, and the hub and leaf items with their names. A block
without `crypt_link` is loaded with a password only, and a block that is marked illegal is taken off
the list. -/
structure ConnectTable (α β : Type*) where
  block : α → ConnectBlock
  serverItems : List α
  matchName : β → Str
  hubItems : List β
  leafItems : List β
  legal : ∀ c ∈ serverItems, (block c).illegal = false
  secured : ∀ c ∈ serverItems, (block c).cryptLink = false → (block c).passwd ≠ none

/-- An item that a client attaches. -/
inductive ConfRef (α β : Type*)
  | block (c : α)
  | item (m : β)
  deriving DecidableEq

/-- What changes: of the blocks and items, of the classes, and of the peer. -/
structure ConfState (α β : Type*) where
  clients : α → ℕ
  ipnum : α → Ssaddr
  refCount : β → ℕ
  currUserCount : ℕ → ℕ
  confs : List (ConfRef α β)
  caps : Finset LinkCap

/-- The peer. -/
structure ServerPeer where
  host : Str
  sockhost : Str
  passwd : Str
  ip : Ssaddr

namespace ConnectTable

variable {α β : Type*} [DecidableEq α] [DecidableEq β] (t : ConnectTable α β)

/-- The loop over `server_items`, with `error` and `server_conf`, or what is returned in the middle
of it. -/
def checkLoop (crypt : Str → Str → Str) (name : Str) (peer : ServerPeer) (cryptlink : Bool) :
    List α → ℤ → Option α → Except ℤ (ℤ × Option α)
  | [], error, serverConf => .ok (error, serverConf)
  | c :: cs, error, serverConf =>
      let aconf := t.block c
      if !matchMask name aconf.name then checkLoop crypt name peer cryptlink cs error serverConf
      else if matchMask aconf.host peer.host || matchMask aconf.host peer.sockhost then
        if cryptlink && aconf.cryptLink then
          checkLoop crypt name peer cryptlink cs (-2)
            (if aconf.rsaPublicKey then some c else serverConf)
        else if !(cryptlink || aconf.cryptLink) then
          if peer.passwd.isEmpty then .error (-2)
          else
            match aconf.passwd with
            | none => .error (-2)
            | some passwd =>
                checkLoop crypt name peer cryptlink cs (-2)
                  (if passwd = (if aconf.encrypted then crypt peer.passwd passwd else peer.passwd)
                    then some c else serverConf)
        else checkLoop crypt name peer cryptlink cs (-2) serverConf
      else checkLoop crypt name peer cryptlink cs (-3) serverConf

/-- `attach_conf` of a connect block. -/
def attachServer (c : α) (x : ConfState α β) : ConfState α β :=
  if .block c ∈ x.confs then x
  else if (t.block c).illegal then x
  else
    { x with
      currUserCount := Function.update x.currUserCount (t.block c).classPtr
        (x.currUserCount (t.block c).classPtr + 1)
      clients := Function.update x.clients c (x.clients c + 1)
      confs := .block c :: x.confs }

/-- `attach_conf` of a hub or leaf item. -/
def attachMatch (x : ConfState α β) (m : β) : ConfState α β :=
  if .item m ∈ x.confs then x
  else
    { x with
      refCount := Function.update x.refCount m (x.refCount m + 1)
      confs := .item m :: x.confs }

/-- The capabilities that `server_conf` does not have. -/
def clearedCaps (c : α) : Finset LinkCap :=
  (if (t.block c).lazyLink then ∅ else {.ll}) ∪ (if (t.block c).compressed then ∅ else {.zip}) ∪
    (if (t.block c).cryptLink then ∅ else {.enc}) ∪
    (if (t.block c).topicBurst then ∅ else {.tb, .tburst})

/-- The block has no address yet. -/
def unspecified (c : α) (x : ConfState α β) : Bool :=
  match (t.block c).aftype with
  | .inet6 => (x.ipnum c).sin6Addr = 0
  | .inet => (x.ipnum c).sinAddr = INADDR_NONE

/-- `aconf` at the end of `check_server`, the last block of the list, takes the address of the
peer. -/
def takeAddress (peer : ServerPeer) (x : ConfState α β) : ConfState α β :=
  match t.serverItems.getLast? with
  | some aconf =>
      if t.unspecified aconf x then { x with ipnum := Function.update x.ipnum aconf peer.ip } else x
  | none => x

def checkServer (crypt : Str → Str → Str) (name : Str) (peer : ServerPeer) (cryptlink : Bool)
    (x : ConfState α β) : ℤ × ConfState α β :=
  if HOSTLEN < name.length then (-4, x)
  else
    match t.checkLoop crypt name peer cryptlink t.serverItems (-1) none with
    | .error e => (e, x)
    | .ok (error, none) => (error, x)
    | .ok (_, some serverConf) =>
        let x := t.attachServer serverConf x
        let x := (t.hubItems.filter fun m => matchMask name (t.matchName m)).foldl attachMatch x
        let x := (t.leafItems.filter fun m => matchMask name (t.matchName m)).foldl attachMatch x
        let x := { x with caps := x.caps \ t.clearedCaps serverConf }
        (0, t.takeAddress peer x)

end ConnectTable

end Unirc
