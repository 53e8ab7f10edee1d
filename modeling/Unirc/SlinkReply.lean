import Mathlib.Algebra.Ring.Nat
import Mathlib.Data.List.TakeDrop
import Mathlib.Order.Basic
import Mathlib.Tactic.Common

/-!
# Replies of the servlink process

`read_ctrl_packet` reads the replies of the servlink process from the control socket: a command,
a length of two bytes if the entry of the command says so, and as much data. It is called by the
event engine, which forgets the read handler of a descriptor before it calls it.
-/

namespace Unirc

abbrev SLINKRPL_ERROR : ℕ := 1
abbrev SLINKRPL_ZIPSTATS : ℕ := 2

/-- An entry of `slinkrpltab`, where `hasData` is `SLINKRPL_FLAG_DATA`. -/
structure SlinkRplDef where
  replyid : ℕ
  hasData : Bool
  deriving DecidableEq, Repr

def slinkrpltab : List SlinkRplDef := [⟨SLINKRPL_ERROR, true⟩, ⟨SLINKRPL_ZIPSTATS, true⟩]

/-- A reply: an entry of the table, and data that two bytes hold the length of. -/
structure SlinkReply where
  replydef : SlinkRplDef
  data : List ℕ
  mem : replydef ∈ slinkrpltab
  length_lt : data.length < 2 ^ 16
  eq_nil : replydef.hasData = false → data = []

namespace SlinkReply

variable (r : SlinkReply)

/-- The bytes of the reply. -/
def encode : List ℕ :=
  r.replydef.replyid :: if r.replydef.hasData then
    (r.data.length >>> 8) % 256 :: r.data.length % 256 :: r.data else []

/-- What the handler is called with. -/
def call : ℕ × ℕ × List ℕ := (r.replydef.replyid, r.data.length, r.data)

/-- `slink_error` exits the server. -/
def isError : Bool := r.replydef.replyid = SLINKRPL_ERROR

end SlinkReply

/-- The replies up to the one that ends the link. -/
def untilError : List SlinkReply → List SlinkReply
  | [] => []
  | r :: rest => if r.isError then [r] else r :: untilError rest

/-- How much the receives find, of which there is always another that finds something. -/
structure RecvSchedule where
  found : ℕ → ℕ
  again : ∀ n, ∃ m, n ≤ m ∧ found m ≠ 0

/-- The control link: the bytes to come, how many receives there were, `slinkrpl` with its buffer
while that is allocated, whether `read_ctrl_packet` is to be called, whether the server is defunct,
the calls of handlers, and whether something outside the buffer was used. -/
structure CtrlLink where
  input : List ℕ
  recvs : ℕ
  command : ℕ
  datalen : ℕ
  gotdatalen : ℕ
  readdata : ℕ
  data : Option (List ℕ)
  handler : Bool
  defunct : Bool
  calls : List (ℕ × ℕ × List ℕ)
  fault : Bool
  deriving DecidableEq

namespace CtrlLink

def start (input : List ℕ) : CtrlLink := ⟨input, 0, 0, 0, 0, 0, none, false, false, [], false⟩

variable (f : RecvSchedule) (s : CtrlLink)

/-- A `recv` of at most `n` bytes; nothing is received when it would block. -/
def recv (n : ℕ) : List ℕ × CtrlLink :=
  let k := min n (f.found s.recvs)
  (s.input.take k, { s with input := s.input.drop k, recvs := s.recvs + 1 })

/-- `comm_setselect` behind the label `nodata` -/
def nodata : CtrlLink := { s with handler := true }

/-- The call of the handler and what follows it. `slink_error` leaves the server dead with its
sockets closed. -/
def handle : CtrlLink :=
  let dead := s.defunct || s.command = SLINKRPL_ERROR
  let s := { s with
    calls := s.calls ++ [(s.command, s.datalen, s.data.getD [])]
    data := if 0 < s.datalen then none else s.data
    command := 0
    defunct := dead }
  if dead then s else s.nodata

/-- The data that is missing, and the handler once it is complete. -/
def withData : CtrlLink :=
  if s.readdata < s.datalen then
    match s.recv f (s.datalen - s.readdata) with
    | ([], s) => s.nodata
    | (bytes, s) =>
        match s.data with
        | none => { s with fault := true }
        | some data =>
            if data.length < s.datalen then { s with fault := true }
            else
              let readdata := s.readdata + bytes.length
              let s := { s with
                data := some (data.take s.readdata ++ bytes ++ data.drop readdata)
                readdata := readdata }
              if s.readdata < s.datalen then s else s.handle
  else s.handle

/-- The second byte of the length, and a buffer. -/
def lowByte (b : ℕ) : CtrlLink :=
  { s with
    datalen := s.datalen ||| b
    gotdatalen := s.gotdatalen + 1
    data := if 0 < s.datalen ||| b then some (List.replicate (s.datalen ||| b) 0) else s.data }

/-- The bytes of the length that are missing. -/
def withLength : CtrlLink :=
  if s.gotdatalen < 2 then
    match s.recv f (2 - s.gotdatalen) with
    | ([], s) => s.nodata
    | (a :: rest, s) =>
        if s.gotdatalen = 0 then
          let s := { s with datalen := a <<< 8, gotdatalen := 1 }
          match rest with
          | [] => s
          | b :: _ => (s.lowByte b).withData f
        else (s.lowByte a).withData f
  else s.withData f

/-- From the entry of the command on. Without an entry there is no handler to call. -/
def withCommand : CtrlLink :=
  match slinkrpltab.find? fun d => d.replyid = s.command with
  | none => { s with fault := true }
  | some d => if d.hasData then s.withLength f else s.withData f

/-- `read_ctrl_packet` -/
def readCtrlPacket : CtrlLink :=
  if s.defunct then s
  else if s.command = 0 then
    let s := { s with gotdatalen := 0, readdata := 0, data := none }
    match s.recv f 1 with
    | ([], s) => s.nodata
    | (b :: _, s) => ({ s with command := b } : CtrlLink).withCommand f
  else s.withCommand f

/-- What `comm_select` does with the socket. -/
def poll : CtrlLink :=
  if s.handler then ({ s with handler := false } : CtrlLink).readCtrlPacket f else s

/-- After `fork_server` has called `read_ctrl_packet`, and `n` times `comm_select`. -/
def after (replies : List SlinkReply) (n : ℕ) : CtrlLink :=
  (poll f)^[n] ((start (replies.flatMap SlinkReply.encode)).readCtrlPacket f)

end CtrlLink

end Unirc
