import Mathlib.Logic.Function.Basic
import Unirc.DnsReply
import Unirc.Runs
import Unirc.SafeLoop

/-!
# The resolver

The requests of `irc_res.c` and the events that act on them. A callback can look other names up and
delete the queries of others; it forgets its own query first. A request that is freed keeps its
contents, and a node that is taken out of the list twice takes the whole list with it.
-/

namespace Unirc

namespace Dns

abbrev NO_ERRORS : ℕ := 0
abbrev NXDOMAIN : ℕ := 3

/-- What has happened to a query: its callback was called, or its requests were deleted. -/
inductive QueryEnd where
  | called (query : ℕ)
  | deleted (query : ℕ)
  deriving DecidableEq

/-- `request_list` from its head, with the requests at their addresses, and the first unused
address and query. -/
structure Resolver where
  requests : ℕ → Option Request
  requestList : List ℕ
  nextRequest : ℕ
  nextQuery : ℕ
  log : List QueryEnd

/-- For each request whether `irc_res_mkquery` works, with the new id and the number of
servers that the query was sent to. -/
abbrev Wires := ℕ → Option (ℕ × ℕ)

/-- What a callback does. -/
inductive QueryAction where
  | byAddr (now : ℤ) (addr : IpAddr) (wires : Wires)
  | byName (now : ℤ) (name : Str) (type : ℕ) (wires : Wires)
  | cancel (query : ℕ)

namespace Resolver

def init : Resolver := ⟨fun _ => none, [], 0, 0, []⟩

section

variable (s : Resolver)

def updRequest (r : ℕ) (f : Request → Request) : Resolver :=
  { s with requests := Function.update s.requests r ((s.requests r).map f) }

/-- `rem_request`. The pointers of a node outside of the list are NULL. -/
def remRequest (r : ℕ) : Resolver :=
  { s with requestList := if r ∈ s.requestList then s.requestList.erase r else [] }

def makeRequest (now : ℤ) (query : ℕ) (state : RequestState) (type : ℕ) (addr : IpAddr)
    (name : Str) : Resolver :=
  { s with
    requests := Function.update s.requests s.nextRequest
      (some ⟨0, 0, state, 0, type, 3, 0, true, now, 4, addr, name, query⟩)
    requestList := s.nextRequest :: s.requestList
    nextRequest := s.nextRequest + 1 }

def isFor (query r : ℕ) : Bool := (s.requests r).any fun request => request.query == query

def deleteResolverQueries (query : ℕ) : Resolver :=
  { s with
    requestList := s.requestList.filter fun r => !s.isFor query r
    log := s.log ++ [.deleted query] }

def findId (id : ℕ) : Option ℕ :=
  s.requestList.find? fun r => (s.requests r).any fun request => request.id == id

/-- `query_name` -/
def queryName (wires : Wires) (r : ℕ) : Resolver :=
  match wires r with
  | none => s
  | some (id, sent) => s.updRequest r fun request =>
      { request with id := id, sends := request.sends + 1, sent := request.sent + sent }

end

/-- `add_local_domain` -/
def addLocalDomain (domain name : Str) : Str :=
  if '.' ∈ name ∨ domain = [] ∨ HOSTLEN ≤ domain.length + name.length + 2 then name
  else name ++ '.' :: domain

def hostName (domain name : Str) : Str := addLocalDomain domain (name.take (HOSTLEN - 1))

variable (domain : Str)

section

variable (s : Resolver)

/-- `gethost_byname_type` -/
def gethostByNameType (now : ℤ) (wires : Wires) (query : ℕ) (name : Str) (type : ℕ) : Resolver :=
  (s.makeRequest now query (if type = T_A then .reqA else .reqAaaa) type (.inet 0)
    (hostName domain name)).queryName wires s.nextRequest

/-- `gethost_byaddr` -/
def gethostByAddr (now : ℤ) (wires : Wires) (query : ℕ) (addr : IpAddr) : Resolver :=
  (s.makeRequest now query .reqIdle T_PTR addr []).queryName wires s.nextRequest

/-- `do_query_name` for a request that exists -/
def doQueryName (wires : Wires) (r : ℕ) (type : ℕ) : Resolver :=
  (s.updRequest r fun request => { request with type := type }).queryName wires r

def resendQuery (wires : Wires) (r : ℕ) : Resolver :=
  match s.requests r with
  | none => s
  | some request =>
      if request.resend = false then s
      else if request.type = T_PTR then s.queryName wires r
      else if request.type = T_A then s.doQueryName wires r T_A
      else if request.type = T_AAAA ∧ request.state = .reqAaaa then s.doQueryName wires r T_A
      else s

/-- A lookup is for a new query, and only a query that was looked up is deleted. -/
def act (s : Resolver) : QueryAction → Resolver
  | .byAddr now addr wires =>
      ({ s with nextQuery := s.nextQuery + 1 } : Resolver).gethostByAddr now wires s.nextQuery addr
  | .byName now name type wires =>
      ({ s with nextQuery := s.nextQuery + 1 } : Resolver).gethostByNameType domain now wires
        s.nextQuery name type
  | .cancel query => if query < s.nextQuery then s.deleteResolverQueries query else s

/-- The callback of a query and what it does, which is nothing about its own query. -/
def callback (react : ℕ → List QueryAction) (query : ℕ) : Resolver :=
  ((react query).filter fun
    | .cancel other => other != query
    | _ => true).foldl (act domain) { s with log := s.log ++ [.called query] }

/-- The callback is called and the request removed. -/
def finish (react : ℕ → List QueryAction) (r : ℕ) (query : ℕ) : Resolver :=
  (s.callback domain react query).remRequest r

end

section Timeout

variable (react : ℕ → List QueryAction) (wires : Wires) (now : ℤ)

/-- The last timeout of a request. -/
def expires (request : Request) : Bool :=
  request.sentat + request.timeout ≤ now && request.retries - 1 ≤ 0

/-- The body of the loop of `timeout_query_list`. -/
def timeoutRequest (s : Resolver) (r : ℕ) : Resolver :=
  match s.requests r with
  | none => s
  | some request =>
      if request.sentat + request.timeout ≤ now then
        let s := s.updRequest r fun request => { request with retries := request.retries - 1 }
        if request.retries - 1 ≤ 0 then s.finish domain react r request.query
        else (s.updRequest r fun request =>
          { request with sentat := now, timeout := request.timeout + request.timeout }).resendQuery
            wires r
      else s

def linked (s : Resolver) (r : ℕ) : Bool := r ∈ s.requestList

def timeoutQueryList (s : Resolver) : Resolver :=
  safeLoop linked (timeoutRequest domain react wires now) s.requestList s.requestList.head? s

end Timeout

section Reply

variable (react : ℕ → List QueryAction) (wires : Wires) (now : ℤ) (ours : Bool)
  (names : NameReader) (p : Packet)

def headerId : ℕ := p.byte 0 + 2 ^ 8 * p.byte 1

def rcode : ℕ := p.byte 3 % 2 ^ 4

/-- An answer with an error, or without records. -/
def replyError (s : Resolver) (r : ℕ) (request : Request) : Resolver :=
  if rcode p = NXDOMAIN then
    if request.state = .reqAaaa ∧ request.type = T_AAAA then
      (s.updRequest r fun request => { request with timeout := request.timeout + 4 }).resendQuery
        wires r
    else
      match request.addr with
      | .inet6 _ =>
          if request.type = T_PTR ∧ request.state ≠ .reqInt then
            (s.updRequest r fun request =>
              { request with
                state := .reqInt
                timeout := request.timeout + 4
                retries := request.retries - 1 }).resendQuery wires r
          else s.finish domain react r request.query
      | .inet _ => s.finish domain react r request.query
  else s.finish domain react r request.query

/-- What follows `proc_answer`, which left the request as `request`. -/
def replyAnswer (s : Resolver) (r : ℕ) (ret : Bool) (request : Request) : Resolver :=
  if ret then
    if request.type = T_PTR then
      (s.gethostByNameType domain now wires request.query request.name
        (match request.addr with
        | .inet6 _ => T_AAAA
        | .inet _ => T_A)).remRequest r
    else s.finish domain react r request.query
  else if request.sent = 0 then s.remRequest r
  else s

/-- `res_readreply`, where `ours` is the verdict of `res_ourserver` on the sender. -/
def resReadreply (s : Resolver) : Resolver :=
  if p.datagram.length ≤ HEADER_SIZE then s
  else
    match s.findId (headerId p) with
    | none => s
    | some r =>
        match s.requests r with
        | none => s
        | some request =>
            if ours = false then s
            else if rcode p ≠ NO_ERRORS ∨ p.get16 6 = 0 then
              s.replyError domain react wires p r request
            else
              let answer := procAnswer names p request (p.get16 4) (p.get16 6)
              (s.updRequest r fun _ => answer.request).replyAnswer domain react wires now r
                answer.ret answer.request

end Reply

end Resolver

inductive ResolverEvent where
  | action (a : QueryAction)
  | reply (react : ℕ → List QueryAction) (wires : Wires) (now : ℤ) (ours : Bool)
      (names : NameReader) (p : Packet)
  | timeout (react : ℕ → List QueryAction) (wires : Wires) (now : ℤ)

namespace Resolver

def step (domain : Str) (s : Resolver) : ResolverEvent → Resolver
  | .action a => s.act domain a
  | .reply react wires now ours names p => s.resReadreply domain react wires now ours names p
  | .timeout react wires now => s.timeoutQueryList domain react wires now

end Resolver

end Dns

end Unirc
