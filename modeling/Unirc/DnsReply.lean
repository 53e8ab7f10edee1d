import Unirc.Hostmask

/-!
# Replies of name servers

`proc_answer` of `irc_res.c` with the bytes that it reads. `irc_dn_skipname` and `irc_dn_expand`
are parameters; what stands behind a datagram in the buffer is arbitrary.
-/

namespace Unirc

namespace Dns

abbrev HEADER_SIZE : ℕ := 12
abbrev MAXPACKET : ℕ := 1024
abbrev QFIXEDSZ : ℕ := 4
abbrev TYPE_SIZE : ℕ := 2
abbrev CLASS_SIZE : ℕ := 2
abbrev TTL_SIZE : ℕ := 4
abbrev RDLENGTH_SIZE : ℕ := 2
abbrev ANSWER_FIXED_SIZE : ℕ := TYPE_SIZE + CLASS_SIZE + TTL_SIZE + RDLENGTH_SIZE

abbrev T_A : ℕ := 1
abbrev T_CNAME : ℕ := 5
abbrev T_PTR : ℕ := 12
abbrev T_AAAA : ℕ := 28

inductive RequestState where
  | reqIdle | reqPtr | reqA | reqAaaa | reqCname | reqInt
  deriving DecidableEq

/-- A `struct reslist`. -/
structure Request where
  id : ℕ
  sent : ℕ
  state : RequestState
  ttl : ℕ
  type : ℕ
  retries : ℤ
  sends : ℕ
  resend : Bool
  sentat : ℤ
  timeout : ℤ
  addr : IpAddr
  name : Str
  query : ℕ

/-- `irc_dn_skipname` and `irc_dn_expand` for the names in one datagram, each with the number of
bytes that the name takes there; none when the name is broken. -/
structure NameReader where
  skipname : ℕ → Option ℕ
  expand : ℕ → Option (ℕ × Str)

/-- The buffer: a datagram, and other bytes behind it. -/
structure Packet where
  datagram : List UInt8
  behind : ℕ → UInt8

namespace Packet

variable (p : Packet)

def eob : ℕ := p.datagram.length

def byte (i : ℕ) : ℕ := (p.datagram.getD i (p.behind i)).toNat

/-- `irc_ns_get16` -/
def get16 (i : ℕ) : ℕ := p.byte i * 2 ^ 8 + p.byte (i + 1)

/-- `irc_ns_get32` -/
def get32 (i : ℕ) : ℕ := p.get16 i * 2 ^ 16 + p.get16 (i + 2)

def inAddr (i : ℕ) : IpAddr := .inet (BitVec.ofNat 32 (p.get32 i))

def in6Addr (i : ℕ) : IpAddr := .inet6 fun k => BitVec.ofNat 8 (p.byte (i + k))

end Packet

/-- The value of `proc_answer`, the request behind it and the bytes that it has read. -/
structure Answer where
  ret : Bool
  request : Request
  reads : List ℕ

namespace Answer

def read (reads : List ℕ) (a : Answer) : Answer := { a with reads := reads ++ a.reads }

end Answer

variable (names : NameReader) (p : Packet)

/-- The loop over the questions. -/
def skipQuestions : ℕ → ℕ → ℕ
  | 0, current => current
  | qdcount + 1, current =>
      match names.skipname current with
      | none => current
      | some n => skipQuestions qdcount (current + n + QFIXEDSZ)

/-- The loop over the answers. -/
def answerLoop : ℕ → ℕ → Request → Answer
  | 0, _, request => ⟨true, request, []⟩
  | ancount + 1, current, request =>
      if current < p.eob then
        match names.expand current with
        | none => ⟨false, request, []⟩
        | some (0, _) => ⟨false, request, []⟩
        | some (n + 1, _) =>
            let current := current + (n + 1)
            if current + ANSWER_FIXED_SIZE < p.eob then
              let type := p.get16 current
              let request := { request with ttl := p.get32 (current + TYPE_SIZE + CLASS_SIZE) }
              let rdLength := p.get16 (current + TYPE_SIZE + CLASS_SIZE + TTL_SIZE)
              let fixed := List.range' current ANSWER_FIXED_SIZE
              let current := current + ANSWER_FIXED_SIZE
              if type = T_A then
                if request.type ≠ T_A ∨ rdLength ≠ 4 then ⟨false, request, fixed⟩
                else ⟨true, { request with addr := p.inAddr current },
                  fixed ++ List.range' current 4⟩
              else if type = T_AAAA then
                if request.type ≠ T_AAAA ∨ rdLength ≠ 16 then ⟨false, request, fixed⟩
                else ⟨true, { request with addr := p.in6Addr current },
                  fixed ++ List.range' current 16⟩
              else if type = T_PTR then
                if request.type ≠ T_PTR then ⟨false, request, fixed⟩
                else
                  match names.expand current with
                  | none => ⟨false, request, fixed⟩
                  | some (0, _) => ⟨false, request, fixed⟩
                  | some (_ + 1, hostbuf) =>
                      ⟨true, { request with name := hostbuf.take (HOSTLEN - 1) }, fixed⟩
              else if type = T_CNAME then
                if request.type ≠ T_PTR then ⟨false, request, fixed⟩
                else if request.state = .reqCname then
                  ⟨(names.expand current).isSome, request, fixed⟩
                else (answerLoop ancount (current + rdLength)
                  { request with state := .reqCname }).read fixed
              else (answerLoop ancount current request).read fixed
            else ⟨true, request, []⟩
      else ⟨true, request, []⟩

/-- `proc_answer` -/
def procAnswer (request : Request) (qdcount ancount : ℕ) : Answer :=
  answerLoop names p ancount (skipQuestions names qdcount HEADER_SIZE) request

end Dns

end Unirc
