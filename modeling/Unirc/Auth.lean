import Mathlib.Data.List.Infix
import Mathlib.Logic.Function.Basic
import Unirc.Chars
import Unirc.Decimal
import Unirc.Runs
import Unirc.SafeLoop

/-!
# Requests for the name and the host of a new client

`s_auth.c`. A request waits for the resolver and for the ident server of its client, and the client
is released when both are done. What a released client has sent is read at once, and can exit other
clients. A request that is freed keeps its contents, and a node that is taken out of a list twice
takes the whole list with it.
-/

namespace Unirc

namespace Auth

abbrev CONNECTTIMEOUT : ℤ := 30

/-- `HeaderMessages` -/
inductive Header where
  | doDns
  | finDns
  | failDns
  | doId
  | finId
  | failId
  | ipMismatch
  | hostTooLong
  deriving DecidableEq

def Header.text : Header → String
  | .doDns => "NOTICE AUTH :*** Looking up your hostname..."
  | .finDns => "NOTICE AUTH :*** Found your hostname"
  | .failDns => "NOTICE AUTH :*** Couldn't look up your hostname"
  | .doId => "NOTICE AUTH :*** Checking Ident"
  | .finId => "NOTICE AUTH :*** Got Ident response"
  | .failId => "NOTICE AUTH :*** No Ident response"
  | .ipMismatch => "NOTICE AUTH :*** Your forward and reverse DNS do not match, ignoring hostname."
  | .hostTooLong => "NOTICE AUTH :*** Your hostname is too long, ignoring hostname"

/-- `struct AuthRequest` -/
structure Request where
  client : ℕ
  doingAuth : Bool
  dnsPending : Bool
  crit : Bool
  timeout : ℤ
  deriving DecidableEq

/-- What `s_auth.c` reads and writes of a local client. Its query is named by the request that the
query points to. -/
structure Conn where
  unknown : Bool
  closing : Bool
  finishedAuth : Bool
  gotId : Bool
  dnsQuery : Option ℕ
  username : Str
  host : Str
  headers : List Header
  deriving DecidableEq

/-- A request was read or written, or freed; a client was released, or has exited. -/
inductive Use where
  | used (auth : ℕ)
  | freed (auth : ℕ)
  | released (client : ℕ)
  | exited (client : ℕ)
  deriving DecidableEq

/-- The requests at their addresses with the first unused one, `auth_doing_dns_list` and
`auth_doing_ident_list` from their heads, and the clients; the requests whose query is with the
resolver, and those whose descriptor is open. -/
structure State where
  auths : ℕ → Option Request
  nextAuth : ℕ
  dnsList : List ℕ
  identList : List ℕ
  clients : ℕ → Option Conn
  queries : List ℕ
  idents : List ℕ
  log : List Use

/-- What is read from a released client does: a client exits, or is registered. -/
inductive Action where
  | exit (client : ℕ)
  | register (client : ℕ)
  deriving DecidableEq

abbrev Packets := ℕ → List Action

structure DnsReply where
  sameAddr : Bool
  name : Str

/-- A read of the ident descriptor. -/
inductive Read where
  | ignored
  | failed
  | data (buf : Str)

/-- What came of a connection to the ident server. -/
inductive Connected where
  | error
  | noName
  | notSent
  | sent (read : Read)

/-- What comes of the ident query while it is started. -/
inductive IdentStart where
  | disabled
  | notOpened
  | waits
  | atOnce (result : Connected)

/-- The text behind the first `c`, with the text before it. -/
def cutAt (c : Char) (s : Str) : Option (Str × Str) :=
  match s.dropWhile (· ≠ c) with
  | [] => none
  | _ :: rest => some (s.takeWhile (· ≠ c), rest)

/-- `GetValidIdent` -/
def getValidIdent (buf : Str) : Option Str := do
  let (ports, rest) ← cutAt ':' (buf.takeWhile (· ≠ '\x00'))
  let (reply, rest) ← cutAt ':' rest
  let (remote, locale) ← cutAt ',' ports
  if Decimal.atoi remote = 0 ∨ Decimal.atoi locale = 0 then none
  else if ¬ ("USERID".toList <:+: reply) then none
  else
    let (_, ident) ← cutAt ':' rest
    some ident

/-- The loop that copies the ident into the username. -/
def copyIdent : ℕ → Str → Str
  | 0, _ => []
  | _, [] => []
  | count + 1, c :: s =>
      if c = '@' then []
      else if Decimal.isSpace c = false ∧ c ≠ ':' ∧ c ≠ '[' then c :: copyIdent count s
      else copyIdent (count + 1) s

def identUsername (ident : Str) : Str :=
  copyIdent USERLEN (ident.dropWhile fun c => c = '~' || c = '^')

/-- `dlinkDelete`. The pointers of a node outside of the list are NULL. -/
def dlinkDelete (list : List ℕ) (a : ℕ) : List ℕ := if a ∈ list then list.erase a else []

namespace State

def init : State := ⟨fun _ => none, 0, [], [], fun _ => none, [], [], []⟩

section

variable (s : State)

def use (u : Use) : State := { s with log := s.log ++ [u] }

def updAuth (a : ℕ) (f : Request → Request) : State :=
  { s with auths := Function.update s.auths a ((s.auths a).map f) }

def updClient (c : ℕ) (f : Conn → Conn) : State :=
  { s with clients := Function.update s.clients c ((s.clients c).map f) }

def sendheader (c : ℕ) (header : Header) : State :=
  s.updClient c fun conn => { conn with headers := conn.headers ++ [header] }

def dnsUnlink (a : ℕ) : State := { s with dnsList := dlinkDelete s.dnsList a }

def identUnlink (a : ℕ) : State := { s with identList := dlinkDelete s.identList a }

/-- `fd_close` of the ident descriptor. -/
def fdClose (a : ℕ) : State := { s with idents := s.idents.erase a }

/-- The query that the client points to. -/
def queryOf (c : ℕ) : Option ℕ := (s.clients c).bind Conn.dnsQuery

/-- `delete_resolver_queries` and `MyFree` of the query of a client. -/
def dropQuery (c : ℕ) : State :=
  ({ s with queries := s.queries.filter fun a => some a ≠ s.queryOf c } : State).updClient c
    fun conn => { conn with dnsQuery := none }

def myFree (a : ℕ) : State := s.use (.freed a)

end

/-- The loop of `delete_auth` over `auth_doing_dns_list`, and whether it returned. -/
def deleteAuthDns (target : ℕ) : List ℕ → State → State × Bool
  | [], s => (s, false)
  | a :: rest, s =>
      match s.auths a with
      | none => deleteAuthDns target rest s
      | some auth =>
          let s := s.use (.used a)
          if auth.client = target then
            let s := (s.dropQuery target).dnsUnlink a
            if auth.doingAuth = false then (s.myFree a, true) else deleteAuthDns target rest s
          else deleteAuthDns target rest s

/-- The loop of `delete_auth` over `auth_doing_ident_list`. -/
def deleteAuthIdent (target : ℕ) : List ℕ → State → State
  | [], s => s
  | a :: rest, s =>
      match s.auths a with
      | none => deleteAuthIdent target rest s
      | some auth =>
          let s := s.use (.used a)
          if auth.client = target then
            deleteAuthIdent target rest (((s.fdClose a).identUnlink a).myFree a)
          else deleteAuthIdent target rest s

/-- `delete_auth` for a client with this record. -/
def deleteAuth (s : State) (target : ℕ) (conn : Conn) : State :=
  if conn.unknown = false then s
  else
    let (s, returned) :=
      if conn.dnsQuery = none then (s, false) else deleteAuthDns target s.dnsList s
    if returned then s else deleteAuthIdent target s.identList s

/-- `exit_client` of a local client. -/
def exitClient (s : State) (c : ℕ) : State :=
  match s.clients c with
  | none => s
  | some conn =>
      if conn.closing then s
      else ((s.updClient c fun conn => { conn with closing := true }).deleteAuth c conn).use
        (.exited c)

/-- A client is registered when what it sends is read. -/
def register (s : State) (c : ℕ) : State :=
  s.updClient c fun conn =>
    if conn.finishedAuth ∧ conn.closing = false then { conn with unknown := false } else conn

def act (s : State) : Action → State
  | .exit c => s.exitClient c
  | .register c => s.register c

section

variable (packets : Packets) (now : ℤ)

/-- `release_auth_client` -/
def releaseAuthClient (s : State) (c : ℕ) : State :=
  (packets c).foldl act
    ((s.updClient c fun conn => { conn with finishedAuth := true }).use (.released c))

/-- What `auth_dns_callback` tells the client, and its new host. -/
def takeReply (conn : Conn) : Option DnsReply → Conn
  | none => { conn with headers := conn.headers ++ [.failDns] }
  | some reply =>
      let conn := if reply.sameAddr then conn
        else { conn with headers := conn.headers ++ [.ipMismatch] }
      if reply.sameAddr ∧ reply.name.length ≤ HOSTLEN then
        { conn with host := reply.name, headers := conn.headers ++ [.finDns] }
      else if HOSTLEN < reply.name.length then
        { conn with headers := conn.headers ++ [.hostTooLong] }
      else conn

def authDnsCallback (s : State) (a : ℕ) (reply : Option DnsReply) : State :=
  match s.auths a with
  | none => s
  | some auth =>
      let s := ((s.use (.used a)).dnsUnlink a).updAuth a fun auth =>
        { auth with dnsPending := false }
      let s := (s.updClient auth.client fun conn => takeReply conn reply).updClient auth.client
        fun conn => { conn with dnsQuery := none }
      if auth.doingAuth then s else (s.myFree a).releaseAuthClient packets auth.client

/-- The end of `auth_error` and of `read_auth_reply`. -/
def identDone (s : State) (a : ℕ) (auth : Request) : State :=
  if auth.dnsPending = false ∧ auth.crit = false then
    (s.releaseAuthClient packets auth.client).myFree a
  else s

/-- What `auth_error` and `read_auth_reply` do first. -/
def identClose (s : State) (a : ℕ) : State :=
  (((s.use (.used a)).fdClose a).identUnlink a).updAuth a fun auth =>
    { auth with doingAuth := false }

def authError (s : State) (a : ℕ) (auth : Request) : State :=
  ((s.identClose a).sendheader auth.client .failId).identDone packets a auth

def readAuthReply (s : State) (a : ℕ) (auth : Request) : Read → State
  | .ignored => s.use (.used a)
  | .failed => (s.use (.used a)).authError packets a auth
  | .data buf =>
      match getValidIdent buf with
      | none => ((s.identClose a).sendheader auth.client .failId).identDone packets a auth
      | some ident =>
          ((((s.identClose a).updClient auth.client fun conn =>
            { conn with username := identUsername ident }).sendheader auth.client .finId).updClient
            auth.client fun conn => { conn with gotId := true }).identDone packets a auth

def authConnectCallback (s : State) (a : ℕ) (auth : Request) : Connected → State
  | .error => s.authError packets a auth
  | .noName => (s.use (.used a)).authError packets a auth
  | .notSent => (s.use (.used a)).authError packets a auth
  | .sent read => (s.use (.used a)).readAuthReply packets a auth read

/-- The body of the loop of `timeout_auth_queries_event`. -/
def timeoutAuth (s : State) (a : ℕ) : State :=
  match s.auths a with
  | none => s
  | some auth =>
      let s := s.use (.used a)
      if auth.timeout ≤ now then
        let s := (s.fdClose a).sendheader auth.client .failId
        let s := if auth.dnsPending then
            ((s.dnsUnlink a).dropQuery auth.client).sendheader auth.client .failDns
          else s
        ((s.identUnlink a).releaseAuthClient packets auth.client).myFree a
      else s

def identLinked (s : State) (a : ℕ) : Bool := a ∈ s.identList

def timeoutAuthQueriesEvent (s : State) : State :=
  safeLoop identLinked (timeoutAuth packets now) s.identList s.identList.head? s

/-- `start_auth_query`, when the ident descriptor was opened. -/
def startAuthQuery (s : State) (a client : ℕ) : State :=
  ({ s.sendheader client .doId with
    identList := a :: s.identList
    idents := a :: s.idents } : State).updAuth a fun auth => { auth with doingAuth := true }

/-- The part of `start_auth` that starts the ident query. -/
def startIdent (s : State) (a client : ℕ) : IdentStart → State
  | .disabled => (s.sendheader client .doId).sendheader client .finId
  | .notOpened => s
  | .waits => s.startAuthQuery a client
  | .atOnce result =>
      match (s.startAuthQuery a client).auths a with
      | none => s
      | some auth => (s.startAuthQuery a client).authConnectCallback packets a auth result

/-- `start_auth` for a client that was just accepted. -/
def startAuth (s : State) (client : ℕ) (ident : IdentStart) : State :=
  let a := s.nextAuth
  let s : State := { s with
    auths := Function.update s.auths a (some ⟨client, false, false, true, now + CONNECTTIMEOUT⟩)
    nextAuth := a + 1 }
  let s := (s.updClient client fun conn => { conn with dnsQuery := some a }).sendheader client
    .doDns
  let s := s.startIdent packets a client ident
  let s := ((s.use (.used a)).updAuth a fun auth => { auth with dnsPending := true }).updAuth a
    fun auth => { auth with crit := false }
  { s with dnsList := a :: s.dnsList, queries := a :: s.queries }

end

end State

/-- A client connects; the resolver answers an outstanding query; there is news of an open ident
descriptor; the timeout event runs; a client exits or is registered. -/
inductive Event where
  | connect (packets : Packets) (client : ℕ) (sockhost : Str) (now : ℤ) (ident : IdentStart)
  | dns (packets : Packets) (auth : ℕ) (reply : Option DnsReply)
  | connected (packets : Packets) (auth : ℕ) (result : Connected)
  | read (packets : Packets) (auth : ℕ) (read : Read)
  | timeout (packets : Packets) (now : ℤ)
  | action (action : Action)

namespace State

def newConn (sockhost : Str) : Conn := ⟨true, false, false, false, none, [], sockhost, []⟩

def step (s : State) : Event → State
  | .connect packets client sockhost now ident =>
      if s.clients client = none then
        ({ s with
          clients := Function.update s.clients client (some (newConn sockhost)) } : State).startAuth
          packets now client ident
      else s
  | .dns packets a reply =>
      if a ∈ s.queries then
        ({ s with queries := s.queries.erase a } : State).authDnsCallback packets a reply
      else s
  | .connected packets a result =>
      if a ∈ s.idents then
        match s.auths a with
        | none => s
        | some auth => s.authConnectCallback packets a auth result
      else s
  | .read packets a read =>
      if a ∈ s.idents then
        match s.auths a with
        | none => s
        | some auth => s.readAuthReply packets a auth read
      else s
  | .timeout packets now => s.timeoutAuthQueriesEvent packets now
  | .action action => s.act action

end State

end Auth

end Unirc
