import Unirc.Dbuf

/-!
# Handing a link over to servlink

`start_io` writes the settings of a link and its queues to the control pipe, as commands of which
some have a length of two bytes and data. `read_ctrl` of the servlink process reads them back, as
much at a time as the pipe has.
-/

namespace Unirc

/-- A length is put together of its two bytes. -/
theorem length_of_bytes {n : ℕ} (h : n < 2 ^ 16) : ((n >>> 8) % 256) <<< 8 ||| n % 256 = n := by
  rw [Nat.mod_eq_of_lt (by rw [Nat.shiftRight_eq_div_pow]; omega),
    ← Nat.shiftLeft_add_eq_or_of_lt (Nat.mod_lt _ (by decide)), Nat.shiftRight_eq_div_pow,
    Nat.shiftLeft_eq]
  omega

/-- The commands of the control pipe. -/
inductive SlinkCommand where
  | setZipOutLevel | startZipOut | startZipIn
  | setCryptInCipher | setCryptInKey | startCryptIn
  | setCryptOutCipher | setCryptOutKey | startCryptOut
  | injectRecvq | injectSendq | init | zipstats
  deriving DecidableEq, Repr

namespace SlinkCommand

def commandid : SlinkCommand → ℕ
  | setZipOutLevel => 1
  | startZipOut => 2
  | startZipIn => 3
  | setCryptInCipher => 4
  | setCryptInKey => 5
  | startCryptIn => 6
  | setCryptOutCipher => 7
  | setCryptOutKey => 8
  | startCryptOut => 9
  | injectRecvq => 10
  | injectSendq => 11
  | init => 12
  | zipstats => 13

/-- `COMMAND_FLAG_DATA` -/
def hasData : SlinkCommand → Bool
  | setZipOutLevel | setCryptInCipher | setCryptInKey | setCryptOutCipher | setCryptOutKey
  | injectRecvq | injectSendq => true
  | startZipOut | startZipIn | startCryptIn | startCryptOut | init | zipstats => false

end SlinkCommand

/-- `command_table` -/
def commandTable : List SlinkCommand :=
  [.setZipOutLevel, .startZipOut, .startZipIn, .setCryptInCipher, .setCryptInKey, .startCryptIn,
    .setCryptOutCipher, .setCryptOutKey, .startCryptOut, .injectRecvq, .injectSendq, .init,
    .zipstats]

/-- A cipher of the table with a key of its length, which is less than 256. -/
structure SlinkCipher where
  cipherid : ℕ
  keylen : ℕ
  key : List ℕ
  length_key : key.length = keylen
  keylen_pos : 0 < keylen
  keylen_lt : keylen < 256

/-- What `start_io` hands over: the compression level of a link with `CAP_ZIP`, and the ciphers for
what comes in and for what goes out of one with `CAP_ENC`. -/
structure SlinkHandover where
  zip : Option ℕ
  enc : Option (SlinkCipher × SlinkCipher)
  recvq : DbufQueue
  sendq : DbufQueue

def DbufBlock.bytes (b : DbufBlock) : List ℕ := b.data.map Char.toNat

namespace SlinkHandover

variable (x : SlinkHandover)

/-- The size of the buffer that is allocated. -/
def alloclen : ℕ :=
  1 + (if x.zip.isSome then 6 else 0) +
    x.enc.elim 0 (fun ciphers => 16 + ciphers.1.keylen + ciphers.2.keylen) +
    x.recvq.totalSize + x.recvq.blocks.length * 3 + x.sendq.totalSize + x.sendq.blocks.length * 3

open SlinkCommand in
def zipBytes (level : ℕ) : List ℕ :=
  [setZipOutLevel.commandid, 0, 1, level % 256, startZipIn.commandid, startZipOut.commandid]

open SlinkCommand in
def encBytes (inCipher outCipher : SlinkCipher) : List ℕ :=
  [setCryptInCipher.commandid, 0, 1, inCipher.cipherid % 256, setCryptInKey.commandid, 0,
    inCipher.keylen % 256] ++ inCipher.key ++
  [setCryptOutCipher.commandid, 0, 1, outCipher.cipherid % 256, setCryptOutKey.commandid, 0,
    outCipher.keylen % 256] ++ outCipher.key ++
  [startCryptIn.commandid, startCryptOut.commandid]

def blockBytes (command : SlinkCommand) (b : DbufBlock) : List ℕ :=
  command.commandid :: (b.size >>> 8) % 256 :: b.size % 256 :: b.bytes

/-- What `start_io` writes to the buffer. -/
def startIo : List ℕ :=
  x.zip.elim [] zipBytes ++ x.enc.elim [] (fun ciphers => encBytes ciphers.1 ciphers.2) ++
    x.recvq.blocks.flatMap (blockBytes .injectRecvq) ++
    x.sendq.blocks.flatMap (blockBytes .injectSendq) ++ [SlinkCommand.init.commandid]

end SlinkHandover

/-- Why servlink dies: a command that it does not know, or a read to a buffer that is not there. -/
inductive SlinkFault where
  | unsupported | noBuffer
  deriving DecidableEq, Repr

/-- The servlink process with the bytes on the pipe, where `chunks` says how much the coming reads
find there, and `calls` are the calls of handlers with their data. -/
structure Servlink where
  input : List ℕ
  chunks : List ℕ
  command : ℕ
  datalen : ℕ
  gotdatalen : ℕ
  readdata : ℕ
  data : Option (List ℕ)
  calls : List (SlinkCommand × List ℕ)
  fault : Option SlinkFault
  deriving DecidableEq

namespace Servlink

def start (input chunks : List ℕ) : Servlink := ⟨input, chunks, 0, 0, 0, 0, none, [], none⟩

variable (s : Servlink)

/-- A `read` of at most `n` bytes; nothing is read when it would block. -/
def read (n : ℕ) : List ℕ × Servlink :=
  let k := min n (s.chunks.headD 0)
  (s.input.take k, { s with input := s.input.drop k, chunks := s.chunks.tail })

/-- The command, unless there is one; whether to go on. -/
def readCommand : Servlink × Bool :=
  if s.command = 0 then
    let s := { s with gotdatalen := 0, datalen := 0, readdata := 0, data := none }
    match s.read 1 with
    | ([], s) => (s, false)
    | (b :: _, s) => ({ s with command := b }, true)
  else (s, true)

/-- The second byte of the length. -/
def lowByte (b : ℕ) : Servlink :=
  { s with
    datalen := s.datalen ||| b
    gotdatalen := 2
    data := if 0 < s.datalen ||| b then some [] else s.data }

/-- The bytes of the length that are missing. -/
def readLength : Servlink × Bool :=
  if s.gotdatalen < 2 then
    match s.read (2 - s.gotdatalen) with
    | ([], s) => (s, false)
    | (a :: rest, s) =>
        if s.gotdatalen = 0 then
          let s := { s with datalen := a <<< 8, gotdatalen := 1 }
          match rest with
          | [] => (s, true)
          | b :: _ => (s.lowByte b, true)
        else (s.lowByte a, true)
  else (s, true)

/-- The data that is missing. -/
def readData : Servlink × Bool :=
  if s.readdata < s.datalen then
    match s.read (s.datalen - s.readdata) with
    | ([], s) => (s, false)
    | (bytes, s) =>
        match s.data with
        | none => ({ s with fault := some .noBuffer }, false)
        | some data =>
            let readdata := s.readdata + bytes.length
            ({ s with data := some (data ++ bytes), readdata }, decide ¬ readdata < s.datalen)
  else (s, true)

/-- The data that is missing, and the handler once it is complete. -/
def withData (c : SlinkCommand) : Servlink :=
  let r := s.readData
  if r.2 then { r.1 with calls := r.1.calls ++ [(c, r.1.data.getD [])], command := 0 } else r.1

def withCommand (c : SlinkCommand) : Servlink :=
  let r := if c.hasData then s.readLength else (s, true)
  if r.2 then r.1.withData c else r.1

/-- The entry of the command. -/
def commandDef : Option SlinkCommand := commandTable.find? fun c => c.commandid = s.command

/-- `read_ctrl` -/
def readCtrl : Servlink :=
  if s.fault.isSome then s
  else
    let r := s.readCommand
    if r.2 then
      match r.1.commandDef with
      | none => { r.1 with fault := some .unsupported }
      | some c => r.1.withCommand c
    else r.1

end Servlink

end Unirc
