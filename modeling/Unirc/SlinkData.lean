import Unirc.Transducer

/-!
# Data through servlink

`read_data`, `write_net`, `read_net` and `write_data` of `io.c`, built with libcrypto and zlib,
after `cmd_init`. Both libraries are parameters. The static buffers are memory with pointers, and an
event is one of the callbacks with the results of its `read` and `write` calls.
-/

namespace Unirc

abbrev READLEN : ℕ := 16384

abbrev BUFLEN : ℕ := READLEN * 6

/-- What a call of `deflate` or `inflate` returns with `Z_OK`. -/
structure ZCall (ζ : Type*) where
  consumed : ℕ
  out : List ℕ
  stream : ζ

/-- The cipher and the compression, as functions on streams and as the calls of the libraries, none
where a call fails. The compressor puts out a block for what it gets at once. -/
structure SlinkCodec (κ ζ : Type*) where
  encryptor : Transducer κ ℕ ℕ
  decryptor : Transducer κ ℕ ℕ
  compressor : Transducer ζ (List ℕ) ℕ
  decompressor : Transducer ζ ℕ ℕ
  encryptUpdate : κ → List ℕ → Option (List ℕ × κ)
  decryptUpdate : κ → List ℕ → Option (List ℕ × κ)
  deflate : ζ → List ℕ → Option (ZCall ζ)
  inflate : ζ → List ℕ → Option (ZCall ζ)
  encryptor_lengthwise : encryptor.Lengthwise
  decryptor_lengthwise : decryptor.Lengthwise
  encryptUpdate_run : ∀ {ctx d r}, encryptUpdate ctx d = some r → r = encryptor.run ctx d
  decryptUpdate_run : ∀ {ctx d r}, decryptUpdate ctx d = some r → r = decryptor.run ctx d
  deflate_step : ∀ {s d z}, deflate s d = some z →
    (z.out, z.stream) = compressor.step s (d.take z.consumed)
  inflate_run : ∀ {s d z}, inflate s d = some z →
    (z.out, z.stream) = decompressor.run s (d.take z.consumed)
  inflate_consumed : ∀ {s d z}, inflate s d = some z → 0 < z.consumed
  length_deflate_le : ∀ {s d z}, deflate s d = some z → z.out.length ≤ BUFLEN
  length_inflate_le : ∀ {s d z}, inflate s d = some z → z.out.length ≤ BUFLEN

/-- The result of a call of `write`. -/
inductive SlinkIo where
  | ret (n : ℕ) | wouldBlock | fatal
  deriving DecidableEq

/-- The result of a call of `read`, with what it reads. -/
inductive SlinkRead where
  | data (bytes : List ℕ) | wouldBlock | fatal

namespace SlinkRead

/-- At most `READLEN` bytes are read. -/
def bytes : SlinkRead → List ℕ
  | data bytes => bytes.take READLEN
  | wouldBlock => []
  | fatal => []

def result : SlinkRead → SlinkIo
  | data bytes => .ret (bytes.take READLEN).length
  | wouldBlock => .wouldBlock
  | fatal => .fatal

end SlinkRead

/-- No more is written than there is. -/
def SlinkIo.upTo (len : ℕ) : SlinkIo → SlinkIo
  | ret n => ret (min n len)
  | wouldBlock => wouldBlock
  | fatal => fatal

/-- None where the process ends. -/
def checkError : SlinkIo → Option ℕ
  | .ret 0 => none
  | .ret (n + 1) => some (n + 1)
  | .wouldBlock => some 0
  | .fatal => none

/-- Why nothing more happens: the process ended with an error or an assertion, or it sleeps until it
can write and never can. -/
inductive SlinkStop where
  | sendError | assertion | asleep
  deriving DecidableEq

/-- What `send_data_blocking` writes, and the results for the calls after it. -/
def sendDataBlocking : List ℕ → List SlinkIo → List ℕ × Except SlinkStop (List SlinkIo)
  | _, [] => ([], .error .asleep)
  | data, io :: writes =>
      if io.upTo data.length = .ret data.length then (data, .ok writes)
      else match checkError (io.upTo data.length) with
        | none => ([], .error .sendError)
        | some ret =>
            let (sent, rest) := sendDataBlocking (data.drop ret) writes
            (data.take ret ++ sent, rest)

inductive SlinkPtr where
  | tmpBuf | tmp2Buf | outBuf | inBuf
  deriving DecidableEq

abbrev SlinkMem := SlinkPtr → List ℕ

namespace SlinkMem

def load (m : SlinkMem) (p : SlinkPtr) (ofs len : ℕ) : List ℕ := ((m p).drop ofs).take len

def store (m : SlinkMem) (p : SlinkPtr) (d : List ℕ) : SlinkMem :=
  Function.update m p (d ++ (m p).drop d.length)

end SlinkMem

/-- To the network and from the network. -/
inductive SlinkWay where
  | out | inn
  deriving DecidableEq

namespace SlinkWay

def other : SlinkWay → SlinkWay
  | out => inn
  | inn => out

/-- The buffer in `out_state` or `in_state`. -/
def buf : SlinkWay → SlinkPtr
  | out => .outBuf
  | inn => .inBuf

end SlinkWay

structure SlinkSettings (κ ζ : Type*) where
  crypt : Bool
  zip : Bool
  ctx : κ
  stream : ζ

/-- `out_state` or `in_state`, with the callbacks of its descriptors and what they did. -/
structure SlinkState (κ ζ : Type*) extends SlinkSettings κ ζ where
  ofs : ℕ
  len : ℕ
  readCb : Bool
  writeCb : Bool
  log : List (PipeOp ℕ ℕ)

structure SlinkWorld (κ ζ : Type*) where
  mem : SlinkMem
  state : SlinkWay → SlinkState κ ζ
  stopped : Option SlinkStop

namespace SlinkWorld

variable {κ ζ : Type*}

/-- After `cmd_init`. -/
def init (mem : SlinkMem) (settings : SlinkWay → SlinkSettings κ ζ) : SlinkWorld κ ζ where
  mem := mem
  state way := { settings way with ofs := 0, len := 0, readCb := true, writeCb := false, log := [] }
  stopped := none

def set (w : SlinkWorld κ ζ) (way : SlinkWay) (st : SlinkState κ ζ) : SlinkWorld κ ζ :=
  { w with state := Function.update w.state way st }

def stop (w : SlinkWorld κ ζ) (why : SlinkStop) : SlinkWorld κ ζ := { w with stopped := some why }

/-- The bytes that wait to be written. -/
def pending (w : SlinkWorld κ ζ) (way : SlinkWay) : List ℕ :=
  w.mem.load way.buf (w.state way).ofs (w.state way).len

def logOp (w : SlinkWorld κ ζ) (way : SlinkWay) (op : PipeOp ℕ ℕ) : SlinkWorld κ ζ :=
  w.set way { w.state way with log := (w.state way).log ++ [op] }

/-- `read` found something. -/
def got (w : SlinkWorld κ ζ) (way : SlinkWay) (buf : SlinkPtr) (bytes : List ℕ) : SlinkWorld κ ζ :=
  { w with mem := w.mem.store buf bytes }.logOp way (.read bytes)

/-- The buffer to read to: data that is to be worked on goes to `tmp_buf`. -/
def readBuf (w : SlinkWorld κ ζ) (way : SlinkWay) (buf : SlinkPtr) : SlinkPtr :=
  if (w.state way).zip = true ∨ (w.state way).crypt = true then .tmpBuf else buf

/-- The `write` at the end of a round of `read_data` and `read_net`, and whether they go on. -/
def writeFresh (w : SlinkWorld κ ζ) (way : SlinkWay) (blen : ℕ) (io : SlinkIo) :
    SlinkWorld κ ζ × Bool :=
  match checkError (io.upTo blen) with
  | none => (w.stop .sendError, false)
  | some ret =>
      let w := w.logOp way (.wrote ((w.mem.load way.buf 0 blen).take ret))
      if ret < blen then
        (w.set way { w.state way with
          writeCb := true, readCb := false, ofs := ret, len := blen - ret }, false)
      else (w, true)

/-- The body of `write_net` and of `write_data`. -/
def writePending (w : SlinkWorld κ ζ) (way : SlinkWay) (io : SlinkIo) : SlinkWorld κ ζ :=
  if (w.state way).len = 0 then w.stop .assertion
  else match checkError (io.upTo (w.state way).len) with
    | none => w.stop .sendError
    | some 0 => w
    | some ret =>
        let w := w.logOp way (.wrote ((w.pending way).take ret))
        let st := w.state way
        if st.len - ret = 0 then
          w.set way { st with len := 0, writeCb := false, readCb := true, ofs := 0 }
        else w.set way { st with len := st.len - ret, ofs := st.ofs + ret }

def writeNet (w : SlinkWorld κ ζ) (io : SlinkIo) : SlinkWorld κ ζ := w.writePending .out io

def writeData (w : SlinkWorld κ ζ) (io : SlinkIo) : SlinkWorld κ ζ := w.writePending .inn io

section Codec

variable (C : SlinkCodec κ ζ)

/-- `deflate` in `read_data`: the buffer with the result and its length. -/
def deflateData (w : SlinkWorld κ ζ) (buf : SlinkPtr) (ret : ℕ) :
    Except SlinkStop (SlinkWorld κ ζ × SlinkPtr × ℕ) :=
  let st := w.state .out
  if st.zip then
    let dest := if st.crypt then .tmp2Buf else .outBuf
    match C.deflate st.stream (w.mem.load buf 0 ret) with
    | none => .error .sendError
    | some z =>
        if BUFLEN - z.out.length = 0 then .error .sendError
        else if ret - z.consumed ≠ 0 then .error .sendError
        else .ok ({ w with mem := w.mem.store dest z.out }.set .out { st with stream := z.stream },
          dest, z.out.length)
  else .ok (w, buf, ret)

def encryptData (w : SlinkWorld κ ζ) (buf : SlinkPtr) (blen : ℕ) :
    Except SlinkStop (SlinkWorld κ ζ) :=
  let st := w.state .out
  if st.crypt then
    match C.encryptUpdate st.ctx (w.mem.load buf 0 blen) with
    | none => .error .sendError
    | some (d, ctx) =>
        if d.length ≠ blen then .error .assertion
        else .ok ({ w with mem := w.mem.store .outBuf d }.set .out { st with ctx := ctx })
  else .ok w

def readDataLoop (w : SlinkWorld κ ζ) (buf : SlinkPtr) :
    List SlinkRead → List SlinkIo → SlinkWorld κ ζ
  | [], _ => w
  | r :: reads, writes =>
      match checkError r.result with
      | none => w.stop .sendError
      | some 0 => w
      | some ret =>
          let w := w.got .out buf r.bytes
          match w.deflateData C buf ret with
          | .error e => w.stop e
          | .ok (w, buf, blen) =>
              match w.encryptData C buf blen with
              | .error e => w.stop e
              | .ok w =>
                  match w.writeFresh .out blen (writes.headD .wouldBlock) with
                  | (w, true) => readDataLoop w (w.readBuf .out buf) reads writes.tail
                  | (w, false) => w

def readData (w : SlinkWorld κ ζ) (reads : List SlinkRead) (writes : List SlinkIo) :
    SlinkWorld κ ζ :=
  if (w.state .out).len ≠ 0 then w.stop .assertion
  else w.readDataLoop C (w.readBuf .out .outBuf) reads writes

/-- `EVP_DecryptUpdate` in `read_net`: the buffer with the result. -/
def decryptNet (w : SlinkWorld κ ζ) (buf : SlinkPtr) (ret : ℕ) :
    Except SlinkStop (SlinkWorld κ ζ × SlinkPtr) :=
  let st := w.state .inn
  if st.crypt then
    let dest := if st.zip then .tmp2Buf else .inBuf
    match C.decryptUpdate st.ctx (w.mem.load .tmpBuf 0 ret) with
    | none => .error .sendError
    | some (d, ctx) =>
        if d.length ≠ ret then .error .assertion
        else .ok ({ w with mem := w.mem.store dest d }.set .inn { st with ctx := ctx }, dest)
  else .ok (w, buf)

/-- What is decompressed so far is sent while there is more to come. -/
def flushNet (w : SlinkWorld κ ζ) (blen : ℕ) (writes : List SlinkIo) :
    SlinkWorld κ ζ × Option (List SlinkIo) :=
  if blen = 0 then (w, some writes)
  else match sendDataBlocking (w.mem.load .inBuf 0 blen) writes with
    | (sent, .error e) => ((w.logOp .inn (.wrote sent)).stop e, none)
    | (sent, .ok writes) => (w.logOp .inn (.wrote sent), some writes)

/-- One call of `inflate` for the input at `ofs` in the buffer `nextIn`. -/
def inflateOnce (w : SlinkWorld κ ζ) (z : ZCall ζ) : SlinkWorld κ ζ :=
  { w with mem := w.mem.store .inBuf z.out }.set .inn { w.state .inn with stream := z.stream }

/-- The loop on `avail_in`, which gives the last `blen`; none where it does not end. -/
def inflateLoop (w : SlinkWorld κ ζ) (nextIn : SlinkPtr) (ofs availIn blen : ℕ)
    (writes : List SlinkIo) : SlinkWorld κ ζ × Option (ℕ × List SlinkIo) :=
  if availIn = 0 then (w, some (blen, writes))
  else match _hz : C.inflate (w.state .inn).stream (w.mem.load nextIn ofs availIn) with
    | none => (w.stop .sendError, none)
    | some z =>
        let w := w.inflateOnce z
        if availIn - z.consumed = 0 then (w, some (z.out.length, writes))
        else match w.flushNet z.out.length writes with
          | (w, none) => (w, none)
          | (w, some writes) =>
              inflateLoop w nextIn (ofs + z.consumed) (availIn - z.consumed) 0 writes
  termination_by availIn
  decreasing_by
    have := C.inflate_consumed _hz
    omega

def inflateNet (w : SlinkWorld κ ζ) (buf : SlinkPtr) (ret : ℕ) (writes : List SlinkIo) :
    SlinkWorld κ ζ × Option (ℕ × List SlinkIo) :=
  if (w.state .inn).zip then w.inflateLoop C buf 0 ret ret writes else (w, some (ret, writes))

def readNetLoop (w : SlinkWorld κ ζ) (buf : SlinkPtr) :
    List SlinkRead → List SlinkIo → SlinkWorld κ ζ
  | [], _ => w
  | r :: reads, writes =>
      match checkError r.result with
      | none => w.stop .sendError
      | some 0 => w
      | some ret =>
          let w := w.got .inn buf r.bytes
          match w.decryptNet C buf ret with
          | .error e => w.stop e
          | .ok (w, buf) =>
              match w.inflateNet C buf ret writes with
              | (w, none) => w
              | (w, some (blen, writes)) =>
                  if (w.state .inn).zip = true ∧ blen = 0 then w
                  else match w.writeFresh .inn blen (writes.headD .wouldBlock) with
                    | (w, true) => readNetLoop w (w.readBuf .inn buf) reads writes.tail
                    | (w, false) => w

def readNet (w : SlinkWorld κ ζ) (reads : List SlinkRead) (writes : List SlinkIo) :
    SlinkWorld κ ζ :=
  if (w.state .inn).len ≠ 0 then w.stop .assertion
  else w.readNetLoop C (w.readBuf .inn .inBuf) reads writes

end Codec

end SlinkWorld

/-- A callback with the results of its calls. -/
inductive SlinkEvent where
  | readData (reads : List SlinkRead) (writes : List SlinkIo)
  | writeNet (io : SlinkIo)
  | readNet (reads : List SlinkRead) (writes : List SlinkIo)
  | writeData (io : SlinkIo)

namespace SlinkWorld

variable {κ ζ : Type*} (C : SlinkCodec κ ζ)

/-- `io_loop` makes the callbacks that are registered. -/
def callback (w : SlinkWorld κ ζ) : SlinkEvent → SlinkWorld κ ζ
  | .readData reads writes => if (w.state .out).readCb then w.readData C reads writes else w
  | .writeNet io => if (w.state .out).writeCb then w.writeNet io else w
  | .readNet reads writes => if (w.state .inn).readCb then w.readNet C reads writes else w
  | .writeData io => if (w.state .inn).writeCb then w.writeData io else w

def step (w : SlinkWorld κ ζ) (e : SlinkEvent) : SlinkWorld κ ζ :=
  if w.stopped.isSome then w else w.callback C e

end SlinkWorld

end Unirc
