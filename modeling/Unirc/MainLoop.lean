import Mathlib.Data.List.Nodup
import Mathlib.Logic.Function.Basic

/-!
# Exits and the main loop

The clients with the lists that they are filed in. A client whose queue overflows waits on
`abort_list` until `exit_aborted_clients`, one that has exited on `dead_list` until
`free_exited_clients`. Any message can overflow the queue of any connection.
-/

namespace Unirc

inductive ClientStatus where
  | connecting | handshake | me | unknown | server | client
  deriving DecidableEq, Repr

/-- The lists and the hash tables of clients. -/
inductive ClientList where
  | unknown | localClient | serv | oper | globalClient | globalServ | clientTable | idTable
  deriving DecidableEq, Repr

/-- What an exit looks at; `named` is `name[0]`. -/
structure ClientRecord where
  status : ClientStatus
  myConnect : Bool
  servptr : ℕ
  named : Bool
  hasId : Bool
  oper : Bool
  dead : Bool
  closing : Bool
  killed : Bool
  deriving DecidableEq

/-- The assertions on the way, and the use of memory that is not a client. -/
inductive ExitFault where
  | freed | exitMe | onList | onAbortList | onDeadList | notClosed | inChannel
  deriving DecidableEq, Repr

/-- `members` are the clients of the channels, `accepts` who is on whose list, `exited` and `freed`
what went through `exit_one_client` and `free_client`. `tape` says whose queue overflows at the
messages to come. -/
structure MainLoop where
  client : ℕ → Option ClientRecord
  next : ℕ
  lists : ClientList → List ℕ
  users : ℕ → List ℕ
  servers : ℕ → List ℕ
  members : List (ℕ × ℕ)
  accepts : List (ℕ × ℕ)
  invites : List (ℕ × ℕ)
  abortList : List ℕ
  eacNext : Option ℕ
  deadList : List ℕ
  exited : List ℕ
  freed : List ℕ
  tape : List (List ℕ)
  faults : List ExitFault

namespace MainLoop

/-- `&me` -/
abbrev me : ℕ := 0

variable (s : MainLoop)

def fault (f : ExitFault) : MainLoop := { s with faults := s.faults ++ [f] }

def check (ok : Bool) (f : ExitFault) : MainLoop := if ok then s else s.fault f

def modify (c : ℕ) (f : ClientRecord → ClientRecord) : MainLoop :=
  { s with client := Function.update s.client c ((s.client c).map f) }

def setList (L : ClientList) (l : List ℕ) : MainLoop :=
  { s with lists := Function.update s.lists L l }

/-- `dlinkAdd` -/
def add (L : ClientList) (c : ℕ) : MainLoop := s.setList L (c :: s.lists L)

/-- `dlinkFindDelete` -/
def remove (L : ClientList) (c : ℕ) : MainLoop := s.setList L ((s.lists L).erase c)

def removeIf (b : Bool) (L : ClientList) (c : ℕ) : MainLoop := if b then s.remove L c else s

/-- The connections that messages are sent to. -/
def connections : List ℕ := s.lists .unknown ++ s.lists .localClient ++ s.lists .serv

/-- `dead_link_on_write` -/
def deadLinkOnWrite (c : ℕ) : MainLoop :=
  match s.client c with
  | none => s.fault .freed
  | some k =>
      if k.dead || k.closing || k.killed then s
      else
        let s := s.check (decide (c ∉ s.abortList)) .onAbortList
        { s.modify c (fun k => { k with dead := true }) with
          abortList := s.abortList ++ [c]
          eacNext := if s.eacNext.isNone then some c else s.eacNext }

/-- Some messages; a queue that overflows, and a write that fails, make a link dead. -/
def send : MainLoop :=
  (s.tape.headD []).foldl (fun s c => if c ∈ s.connections then s.deadLinkOnWrite c else s)
    { s with tape := s.tape.tail }

/-- What `exit_one_client` does first for a server. -/
def exitServer (c : ℕ) (k : ClientRecord) : MainLoop :=
  let s := s.check (s.client k.servptr).isSome .freed
  { s with servers := Function.update s.servers k.servptr ((s.servers k.servptr).erase c) }.remove
    .globalServ c

/-- What `exit_one_client` does first for a user. -/
def exitUser (c : ℕ) (k : ClientRecord) : MainLoop :=
  let s := s.check (s.client k.servptr).isSome .freed
  let s : MainLoop :=
    { s with users := Function.update s.users k.servptr ((s.users k.servptr).erase c) }
  let s := s.send
  { s with
    members := s.members.filter fun m => m.2 ≠ c
    accepts := s.accepts.filter fun a => a.1 ≠ c ∧ a.2 ≠ c
    invites := if k.myConnect then s.invites.filter fun i => i.2 ≠ c else s.invites }

/-- `exit_one_client` -/
def exitOneClient (c : ℕ) : MainLoop :=
  match s.client c with
  | none => s.fault .freed
  | some k =>
      let s := s.check (decide (k.status ≠ .me)) .exitMe
      let s :=
        if k.status = .server then s.exitServer c k
        else if k.status = .client then s.exitUser c k else s
      let s := (s.removeIf k.hasId .idTable c).removeIf k.named .clientTable c
      -- a node without a next one is not on the list: `me` is at its end
      let s := s.removeIf (decide ((s.lists .globalClient).getLast? ≠ some c)) .globalClient c
      let s := s.send.check (decide (c ∉ s.deadList)) .onDeadList
      { s.modify c (fun k => { k with dead := true }) with
        deadList := c :: s.deadList
        exited := s.exited ++ [c] }

/-- `recurse_remove_clients`, where the fuel bounds the depth. -/
def recurseRemoveClients : ℕ → MainLoop → ℕ → MainLoop
  | 0, s, _ => s
  | fuel + 1, s, a =>
      let s := (s.users a).foldl exitOneClient s
      (s.servers a).foldl (fun s b => (recurseRemoveClients fuel s b).exitOneClient b) s

/-- `remove_dependents` -/
def removeDependents (a : ℕ) : MainLoop := recurseRemoveClients s.next s.send a

/-- The first half of `exit_client`, for what is connected to us. -/
def disconnect (c : ℕ) (k : ClientRecord) : MainLoop :=
  let s := s.modify c fun k => { k with closing := true }
  let s :=
    if k.status ≠ .server ∧ k.status ≠ .client then s.remove .unknown c
    else if k.status = .client then ((s.removeIf k.oper .oper c).remove .localClient c).send
    else s
  let s := s.removeIf
    (decide (k.status = .server ∨ k.status = .connecting ∨ k.status = .handshake)) .serv c
  if k.dead then s else s.send

/-- `exit_client` -/
def exitClient (c : ℕ) : MainLoop :=
  match s.client c with
  | none => s.fault .freed
  | some k =>
      if k.myConnect && k.closing then s
      else
        let s := if k.myConnect then s.disconnect c k else s
        let s :=
          if k.status = .server then
            let s := s.removeDependents c
            if k.servptr = me then s.send else s
          else if k.status = .client ∧ k.killed = false then s.send else s
        let s := s.check (decide (c ∉ s.lists .unknown ∧ c ∉ s.lists .localClient ∧
          c ∉ s.lists .serv ∧ c ∉ s.lists .oper)) .onList
        s.exitOneClient c

/-- `dead_link_on_read` -/
def deadLinkOnRead (c : ℕ) : MainLoop :=
  match s.client c with
  | none => s.fault .freed
  | some k => if k.dead || k.closing || k.killed then s else s.send.exitClient c

/-- The next node of `abort_list`. -/
def nextAborted (c : ℕ) : Option ℕ := ((s.abortList.dropWhile (· ≠ c)).drop 1).head?

/-- The loop of `exit_aborted_clients` from the node `ptr`, for so many rounds; none when it is not
through then. -/
def exitAbortedLoop : ℕ → Option ℕ → MainLoop → Option MainLoop
  | _, none, s => some s
  | 0, some _, _ => none
  | fuel + 1, some c, s =>
      let s := s.check (decide (c ∈ s.abortList)) .freed
      let s := { s with eacNext := s.nextAborted c, abortList := s.abortList.erase c }.exitClient c
      exitAbortedLoop fuel s.eacNext { s with eacNext := s.eacNext.bind s.nextAborted }

/-- `exit_aborted_clients` -/
def exitAbortedClients : Option MainLoop :=
  let ptr := s.abortList.head?
  exitAbortedLoop s.next ptr { s with eacNext := ptr.bind s.nextAborted }

/-- `free_client`, and the node of `dead_list`. -/
def freeClient (c : ℕ) : MainLoop :=
  match s.client c with
  | none => s.fault .freed
  | some k =>
      let s := s.check (s.members.all fun m => m.2 ≠ c) .inChannel
      let s := s.check (!k.myConnect || (k.closing && k.dead &&
        s.invites.all fun i => i.2 ≠ c)) .notClosed
      { s with
        client := Function.update s.client c none
        deadList := s.deadList.erase c
        freed := s.freed ++ [c] }

/-- `free_exited_clients` -/
def freeExitedClients : MainLoop := s.deadList.foldl freeClient s

/-- The end of a round of `io_loop`. -/
def lap : Option MainLoop := s.exitAbortedClients.map fun s => s.freeExitedClients.send

end MainLoop

/-- What can happen to the clients between the ends of two rounds, and a round's end (`lap`). -/
inductive LoopEvent where
  | message
  | readError (c : ℕ)
  | writeError (c : ℕ)
  | kill (c : ℕ) (marks : Bool)
  | squit (c : ℕ)
  | pingTimeout (c : ℕ)
  | registrationTimeout (c : ℕ)
  | quit (c : ℕ)
  | lap
  | connect
  | connectServer
  | finishAuth (c : ℕ)
  | pass (c : ℕ)
  | nick (c : ℕ)
  | registerUser (c : ℕ) (id : Bool)
  | operUp (c : ℕ)
  | deop (c : ℕ)
  | serverEstab (c : ℕ) (ts6 : Bool)
  | introduceServer (p : ℕ) (id : Bool)
  | introduceNick (p : ℕ)
  | introduceUser (p : ℕ) (id : Bool)
  | join (c channel : ℕ)
  | part (c channel : ℕ)
  | accept (c d : ℕ)
  | unaccept (c d : ℕ)
  | invite (c channel : ℕ)
  | uninvite (c channel : ℕ)

namespace MainLoop

variable (s : MainLoop)

/-- Whether there is such a client that has not exited. -/
def is (c : ℕ) (p : ClientRecord → Bool) : Bool := (s.client c).any p && decide (c ∉ s.exited)

/-- A KILL of a client that was found by its name or id; `mo_kill` does not mark what is ours. -/
def kill (c : ℕ) (marks : Bool) : MainLoop :=
  if (c ∈ s.lists .clientTable ∨ c ∈ s.lists .idTable) ∧
      s.is c (fun k => decide (k.status ≠ .server ∧ k.status ≠ .me)) then
    let s := s.send
    (if marks then s.modify c fun k => { k with killed := true } else s).exitClient c
  else s

/-- What `make_client` has set up. -/
def blank : ClientRecord := ⟨.unknown, true, me, false, false, false, false, false, false⟩

/-- `make_client` -/
def make (k : ClientRecord) : MainLoop :=
  { s with client := Function.update s.client s.next (some k), next := s.next + 1 }

def addUser (p c : ℕ) : MainLoop := { s with users := Function.update s.users p (c :: s.users p) }

def addServer (p c : ℕ) : MainLoop :=
  { s with servers := Function.update s.servers p (c :: s.servers p) }

def addIf (b : Bool) (L : ClientList) (c : ℕ) : MainLoop := if b then s.add L c else s

/-- `add_connection` -/
def connect : MainLoop := (s.make blank).add .unknown s.next

/-- `serv_connect` -/
def connectServer : MainLoop :=
  ((s.make { blank with status := .connecting, named := true }).add .unknown s.next).add
    .globalClient s.next

/-- `release_auth_client` -/
def finishAuth (c : ℕ) : MainLoop :=
  if c ∈ s.lists .unknown ∧ c ∉ s.lists .globalClient then s.add .globalClient c else s

/-- A PASS with the id of a server. -/
def pass (c : ℕ) : MainLoop :=
  if c ∈ s.lists .unknown then s.modify c fun k => { k with hasId := true } else s

/-- `set_initial_nick` -/
def nick (c : ℕ) : MainLoop :=
  if c ∈ s.lists .unknown ∧ c ∉ s.lists .clientTable then
    (s.modify c fun k => { k with named := true }).add .clientTable c
  else s

/-- `register_local_user`, after the NICK; `id` is whether we have an id. -/
def registerUser (c : ℕ) (id : Bool) : MainLoop :=
  if c ∈ s.lists .unknown ∧ c ∈ s.lists .clientTable then
    let s := s.send.remove .unknown c
    let s := s.modify c fun k =>
      { k with status := .client, servptr := me, hasId := k.hasId || id }
    (((s.addUser me c).add .localClient c).addIf id .idTable c).send
  else s

/-- `oper_up` -/
def operUp (c : ℕ) : MainLoop :=
  if c ∈ s.lists .localClient ∧ s.is c (fun k => !k.oper) then
    ((s.modify c fun k => { k with oper := true }).add .oper c).send
  else s

/-- A MODE, SVSMODE or SVSNOOP that takes the flag of an operator away. -/
def deop (c : ℕ) : MainLoop :=
  if c ∈ s.lists .oper then
    ((s.remove .oper c).modify c fun k => { k with oper := false }).send
  else s

/-- `server_estab`. The name of the server comes over a nick that was given before, which stays in
its chain; `ts6` is the capability, and CAPAB can set it without an id. -/
def serverEstab (c : ℕ) (ts6 : Bool) : MainLoop :=
  if c ∈ s.lists .unknown then
    let s := s.send.remove .unknown c
    let s := s.modify c fun k => { k with status := .server, servptr := me, named := true }
    (((((s.addServer me c).addIf ts6 .idTable c).add .serv c).add .globalServ c).add
      .clientTable c).send
  else s

/-- A server that another one introduces. -/
def introduceServer (p : ℕ) (id : Bool) : MainLoop :=
  if p ∈ s.lists .globalServ ∧ p ≠ me then
    let c := s.next
    let s := s.make ⟨.server, false, p, true, id, false, false, false, false⟩
    (((((s.addServer p c).add .globalClient c).add .globalServ c).add .clientTable c).addIf id
      .idTable c).send
  else s

/-- A NICK of another server that is too short for `register_remote_user`. -/
def introduceNick (p : ℕ) : MainLoop :=
  if p ∈ s.lists .globalServ ∧ p ≠ me then
    let c := s.next
    let s := s.make ⟨.unknown, false, p, true, false, false, false, false, false⟩
    (s.add .globalClient c).add .clientTable c
  else s

/-- `register_remote_user` -/
def introduceUser (p : ℕ) (id : Bool) : MainLoop :=
  if p ∈ s.lists .globalServ ∧ p ≠ me then
    let c := s.next
    let s := s.make ⟨.client, false, p, true, id, false, false, false, false⟩
    ((((s.addUser p c).add .globalClient c).add .clientTable c).addIf id .idTable c).send
  else s

/-- `add_user_to_channel` -/
def join (c channel : ℕ) : MainLoop :=
  if s.is c (fun k => decide (k.status = .client)) then
    { s with members := (channel, c) :: s.members }
  else s

/-- `remove_user_from_channel` -/
def part (c channel : ℕ) : MainLoop := { s with members := s.members.filter (· ≠ (channel, c)) }

/-- `add_accept` -/
def accept (c d : ℕ) : MainLoop :=
  if s.is c (fun k => decide (k.status = .client)) ∧ s.is d (fun k => decide (k.status = .client))
    then { s with accepts := (c, d) :: s.accepts } else s

/-- `del_from_accept` -/
def unaccept (c d : ℕ) : MainLoop := { s with accepts := s.accepts.filter (· ≠ (c, d)) }

/-- `add_invite` -/
def invite (c channel : ℕ) : MainLoop :=
  if s.is c (fun k => decide (k.status = .client) && k.myConnect) then
    { s with invites := (channel, c) :: s.invites }
  else s

/-- `del_invite` -/
def uninvite (c channel : ℕ) : MainLoop :=
  { s with invites := s.invites.filter (· ≠ (channel, c)) }

/-- One event; none when `exit_aborted_clients` does not come to an end. -/
def step : LoopEvent → Option MainLoop
  | .message => some s.send
  | .readError c => some (if c ∈ s.connections then s.deadLinkOnRead c else s)
  | .writeError c => some (if c ∈ s.connections then s.deadLinkOnWrite c else s)
  | .kill c marks => some (s.kill c marks)
  | .squit c => some (if c ∈ s.lists .globalServ ∧ c ≠ me then s.send.exitClient c else s)
  | .pingTimeout c => some (
      if (c ∈ s.lists .localClient ∨ c ∈ s.lists .serv) ∧ s.is c (fun k => !k.dead)
      then s.send.exitClient c else s)
  | .registrationTimeout c => some (if c ∈ s.lists .unknown then s.exitClient c else s)
  | .quit c => some (if c ∈ s.connections then s.send.exitClient c else s)
  | .lap => s.lap
  | .connect => some s.connect
  | .connectServer => some s.connectServer
  | .finishAuth c => some (s.finishAuth c)
  | .pass c => some (s.pass c)
  | .nick c => some (s.nick c)
  | .registerUser c id => some (s.registerUser c id)
  | .operUp c => some (s.operUp c)
  | .deop c => some (s.deop c)
  | .serverEstab c ts6 => some (s.serverEstab c ts6)
  | .introduceServer p id => some (s.introduceServer p id)
  | .introduceNick p => some (s.introduceNick p)
  | .introduceUser p id => some (s.introduceUser p id)
  | .join c channel => some (s.join c channel)
  | .part c channel => some (s.part c channel)
  | .accept c d => some (s.accept c d)
  | .unaccept c d => some (s.unaccept c d)
  | .invite c channel => some (s.invite c channel)
  | .uninvite c channel => some (s.uninvite c channel)

/-- The server before the first connection; `tape` is what the messages to come overflow. -/
def boot (tape : List (List ℕ)) : MainLoop where
  client := fun c =>
    if c = me then some ⟨.me, true, me, true, true, false, false, false, false⟩ else none
  next := 1
  lists := fun
    | .globalClient | .globalServ | .clientTable | .idTable => [me]
    | .unknown | .localClient | .serv | .oper => []
  users := fun _ => []
  servers := fun _ => []
  members := []
  accepts := []
  invites := []
  abortList := []
  eacNext := none
  deadList := []
  exited := []
  freed := []
  tape := tape
  faults := []

def run (tape : List (List ℕ)) (events : List LoopEvent) : Option MainLoop :=
  events.foldlM step (boot tape)

end MainLoop

end Unirc
