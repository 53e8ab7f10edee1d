import Unirc.Leaving
import Unirc.Match
import Unirc.SafeLoop

/-!
# The network that a server knows

The registered clients with the lists and tables they are filed in, the counters of each link, and
how a client, or a server with all that hangs off it, is removed from them.
-/

namespace Unirc

/-- What `assert` or a walk over a list can find wrong. -/
inductive Fault where
  | exitMe | depServers | depUsers | leftServers | leftUsers | squitSource | onList
  | freedNode | exitedServer
  deriving DecidableEq

/-- The connect block of a link: `fakename` and whether AWAY is sent in a burst. -/
structure Sconf where
  fakename : Option Str
  awayBurst : Bool

/-- The capabilities of a link. -/
structure Caps where
  ts6 : Bool
  qs : Bool
  ll : Bool
  hub : Bool
  deriving DecidableEq

structure NetLink where
  sconf : Option Sconf
  caps : Caps
  dead : Bool

/-- A connection that has not registered, with the name of its connect block if it has one. -/
structure Pending where
  name : Buf (HOSTLEN + 1)
  id : Buf (IDLEN + 1)
  host : Str
  dead : Bool

/-- `core` has the registered clients and `me`. `sent` has what was given to `sendto_one`. -/
structure Network where
  core : Server
  me : ℕ
  pending : ℕ → Option Pending
  clientTable : List ℕ
  idTable : List ℕ
  globalClientList : List ℕ
  globalServList : List ℕ
  servList : List ℕ
  unknownList : List ℕ
  depServers : ℕ → ℤ
  depUsers : ℕ → ℤ
  link : ℕ → NetLink
  sent : List (ℕ × Str)
  faults : List Fault

namespace Network

section

variable (n : Network)

def client? (a : ℕ) : Option Client := n.core.client? a

/-- `IsServer` or `IsMe` -/
def isServer (a : ℕ) : Bool := (n.client? a).any fun k => !k.isClient

def isUser (a : ℕ) : Bool := (n.client? a).any Client.isClient

/-- `source_p->servptr` -/
def parent (a : ℕ) : ℕ := (n.client? a).elim n.me Client.servptr

/-- `source_p->serv->users` -/
def users (a : ℕ) : List ℕ := (n.client? a).elim [] Client.users

def servers (a : ℕ) : List ℕ := (n.client? a).elim [] Client.servers

/-- `me.name` -/
def myName : Str := (n.client? n.me).elim [] fun k => k.name.val

/-- `source_p->from`, where the source may not be registered. -/
def fromOf (a : ℕ) : ℕ := (n.client? a).elim a Client.from_

def check (ok : Bool) (f : Fault) : Network :=
  if ok then n else { n with faults := n.faults ++ [f] }

def sendtoOne (peer : ℕ) (line : Str) : Network := { n with sent := n.sent ++ [(peer, line)] }

/-- `ID_or_name` -/
def idOrName (k : Client) (peer : ℕ) : Str :=
  if (n.link peer).caps.ts6 then k.idOrName else k.name.val

/-- `my_name_for_link`, or `me.name` for a link without a connect block. -/
def myNameForLink (peer : ℕ) : Str :=
  (((n.link peer).sconf.bind Sconf.fakename).getD n.myName).take HOSTLEN

/-- `":%s QUIT :%s"` -/
def quitLine (source comment : Str) : Str := ':' :: (source ++ " QUIT :".toList ++ comment)

/-- `"SQUIT %s :%s"` -/
def squitLine (target comment : Str) : Str := "SQUIT ".toList ++ target ++ " :".toList ++ comment

end

/-- `exit_one_client` -/
def exitOneClient (n : Network) (a : ℕ) : Network :=
  match n.client? a with
  | none => n
  | some k =>
      let n := n.check (a ≠ n.me) .exitMe
      let n :=
        if k.isClient then
          if k.myConnect then n
          else
            ({ n with
                depUsers := Function.update n.depUsers k.from_ (n.depUsers k.from_ - 1) }).check
              (n.depUsers k.from_ - 1 ≥ 0) .depUsers
        else
          let n := { n with globalServList := n.globalServList.erase a }
          if k.myConnect then n
          else
            ({ n with
                depServers := Function.update n.depServers k.from_ (n.depServers k.from_ - 1) }).check
              (n.depServers k.from_ - 1 > 0) .depServers
      { n with
        core := n.core.exitOneClient a
        idTable := if k.hasId then n.idTable.erase a else n.idTable
        clientTable := if k.name.val ≠ [] then n.clientTable.erase a else n.clientTable
        globalClientList :=
          if n.globalClientList.getLast? = some a then n.globalClientList
          else n.globalClientList.erase a }

/-- `exit_one_client` for a connection that has not registered. -/
def exitPending (n : Network) (a : ℕ) : Network :=
  { n with
    pending := Function.update n.pending a none
    globalClientList :=
      if n.globalClientList.getLast? = some a then n.globalClientList
      else n.globalClientList.erase a }

/-- `recurse_send_quits`; `fromLink` is its parameter `from`, and the fuel bounds the depth. -/
def recurseSendQuits (original : ℕ) (fromLink : Option ℕ) (peer : ℕ)
    (comment splitstr myname : Str) : ℕ → ℕ → Network → Network
  | 0, _, n => n
  | fuel + 1, a, n =>
      match n.client? a with
      | none => n
      | some k =>
          let hidden := matchMask myname k.name.val
          let qs := (n.link peer).caps.qs
          let n := n.check (peer ≠ a) .squitSource
          let n :=
            if hidden || !qs then
              k.users.foldl (fun n b => n.sendtoOne peer
                (quitLine ((n.client? b).elim [] fun u => u.name.val) splitstr)) n
            else n
          let n := k.servers.foldl
            (fun n b => recurseSendQuits original fromLink peer comment splitstr myname fuel b n) n
          if !hidden && (a = original && fromLink ≠ some peer || !qs) then
            n.sendtoOne peer (squitLine (n.idOrName k peer) comment)
          else n

/-- `recurse_remove_clients` -/
def recurseRemoveClients : ℕ → ℕ → Network → Network
  | 0, _, n => n
  | fuel + 1, a, n =>
      let n := safeLoop (fun n b => decide (b ∈ n.users a)) exitOneClient (n.users a)
        (n.users a).head? n
      let n := safeLoop (fun n b => decide (b ∈ n.servers a))
        (fun n b => (recurseRemoveClients fuel b n).exitOneClient b) (n.servers a)
        (n.servers a).head? n
      (n.check (n.depServers a = 1) .leftServers).check (n.depUsers a = 0) .leftUsers

/-- `remove_dependents` -/
def removeDependents (n : Network) (a : ℕ) (fromLink : Option ℕ) (comment splitstr : Str) :
    Network :=
  let fuel := n.globalServList.length
  recurseRemoveClients fuel a (n.servList.foldl (fun n peer =>
    recurseSendQuits a fromLink peer comment splitstr (n.myNameForLink peer) fuel a n) n)

/-- The netsplit message of `exit_client`. -/
def splitstr (n : Network) (hideServers : Bool) (k : Client) : Str :=
  if hideServers then "*.net *.split".toList
  else (n.client? k.servptr).elim [] (fun p => p.name.val) ++ ' ' :: k.name.val

/-- The branch of `exit_client` for what is connected to us: `serv_list`, the farewell to it. -/
def closeLink (n : Network) (a source : ℕ) (k : Client) (comment : Str) : Network :=
  let n := if k.isClient then n else { n with servList := n.servList.erase a }
  if (n.link a).dead then n
  else
    let n :=
      if k.isClient then n
      else
        let name := (n.client? source).elim ((n.pending source).elim [] fun p =>
          if (n.link a).caps.ts6 && p.id.val ≠ [] then p.id.val else p.name.val)
          fun f => n.idOrName f a
        n.sendtoOne a (':' :: (name ++ " SQUIT ".toList ++ n.myName ++ " :".toList ++ comment))
    n.sendtoOne a ("ERROR :Closing Link: ".toList ++ k.host ++ " (".toList ++ comment ++ [')'])

/-- The QUIT of a user who was not killed. -/
def sendQuit (n : Network) (fromLink : Option ℕ) (k : Client) (comment : Str) : Network :=
  n.servList.foldl (fun n peer =>
    if (n.link peer).dead || fromLink = some peer then n
    else n.sendtoOne peer (quitLine (n.idOrName k peer) comment)) n

/-- `exit_client`, where `source` is its parameter `from`. A client that has exited is closing. -/
def exitClient (n : Network) (hideServers : Bool) (a source : ℕ) (killed : Bool) (comment : Str) :
    Network :=
  match n.client? a, n.pending a with
  | none, none => n
  | none, some p =>
      let n := { n with unknownList := n.unknownList.erase a }
      let n :=
        if p.dead then n
        else n.sendtoOne a
          ("ERROR :Closing Link: ".toList ++ p.host ++ " (".toList ++ comment ++ [')'])
      (n.check (a ∉ n.unknownList) .onList).exitPending a
  | some k, _ =>
      let n := if k.myConnect then n.closeLink a source k comment else n
      -- close_connection has set the `from` of the client to NULL
      let fromLink := if k.myConnect && source = a then none else some (n.fromOf source)
      let n :=
        if k.isClient then if killed then n else n.sendQuit fromLink k comment
        else n.removeDependents a fromLink comment (n.splitstr hideServers k)
      ((n.check (a ∉ n.servList) .onList).check (a ∉ n.unknownList) .onList).exitOneClient a

end Network

end Unirc
