import Unirc.Runs
import Unirc.SlinkData

/-!
# Nothing is lost in servlink

A round of `read_data` or `read_net` takes one piece of its stream and leaves the image of it to be
written, from the buffer it ends up in; whatever part of that is written, the rest is pending, and
while it is the direction does not read.
-/

namespace Unirc

open PipeOp

namespace SlinkMem

theorem load_store_self (m : SlinkMem) (p : SlinkPtr) (d : List ℕ) :
    (m.store p d).load p 0 d.length = d := by
  rw [load, store, Function.update_self, List.drop_zero, List.take_left']
  rfl

theorem store_of_ne (m : SlinkMem) {p q : SlinkPtr} (d : List ℕ) (h : q ≠ p) :
    m.store p d q = m q := Function.update_of_ne h _ _

theorem drop_load (m : SlinkMem) (p : SlinkPtr) (ofs len k : ℕ) :
    (m.load p ofs len).drop k = m.load p (ofs + k) (len - k) := by
  rw [load, List.drop_take, List.drop_drop]
  rfl

end SlinkMem

theorem checkError_ret {n ret : ℕ} (h : checkError (.ret n) = some ret) : ret = n := by
  cases n with
  | zero => cases h
  | succ n => exact (Option.some.inj h).symm

theorem SlinkRead.length_bytes {r : SlinkRead} {ret : ℕ} (h : checkError r.result = some ret)
    (hpos : ret ≠ 0) : r.bytes.length = ret := by
  cases r with
  | data bytes => exact (checkError_ret h).symm
  | wouldBlock => exact absurd (Option.some.inj h).symm hpos
  | fatal => cases h

theorem sendDataBlocking_ok {data sent : List ℕ} {io rest : List SlinkIo}
    (h : sendDataBlocking data io = (sent, .ok rest)) : sent = data := by
  induction io generalizing data sent with
  | nil => cases h
  | cons x io ih =>
      rw [sendDataBlocking] at h
      split at h
      · exact (Prod.mk.inj h).1.symm
      · split at h
        · cases h
        · rename_i ret hret
          rcases hs : sendDataBlocking (data.drop ret) io with ⟨sent', rest'⟩
          rw [hs] at h
          obtain ⟨rfl, rfl⟩ := Prod.mk.inj h
          rw [ih hs, List.take_append_drop]

theorem sendDataBlocking_error {data sent : List ℕ} {io : List SlinkIo} {e : SlinkStop}
    (h : sendDataBlocking data io = (sent, .error e)) : sent <+: data ∧ e ≠ .assertion := by
  induction io generalizing data sent with
  | nil =>
      cases h
      exact ⟨List.nil_prefix, SlinkStop.noConfusion⟩
  | cons x io ih =>
      rw [sendDataBlocking] at h
      split at h
      · cases h
      · split at h
        · cases h
          exact ⟨List.nil_prefix, SlinkStop.noConfusion⟩
        · rename_i ret hret
          rcases hs : sendDataBlocking (data.drop ret) io with ⟨sent', rest'⟩
          rw [hs] at h
          obtain ⟨rfl, rfl⟩ := Prod.mk.inj h
          obtain ⟨hpre, he⟩ := ih hs
          refine ⟨?_, he⟩
          conv_rhs => rw [← List.take_append_drop ret data]
          exact (List.prefix_append_right_inj _).mpr hpre

namespace SlinkCodec

variable {κ ζ : Type*} (C : SlinkCodec κ ζ) (S : SlinkSettings κ ζ)

def zipper : Transducer ζ (List ℕ) ℕ :=
  if S.zip then C.compressor else Transducer.pass.onWords

def unzipper : Transducer ζ ℕ ℕ := if S.zip then C.decompressor else .pass

def crypter : Transducer κ ℕ ℕ := if S.crypt then C.encryptor else .pass

def decrypter : Transducer κ ℕ ℕ := if S.crypt then C.decryptor else .pass

/-- Compressed and then encrypted block by block on the way out, decrypted and then decompressed
byte by byte on the way in. -/
def image : SlinkWay → List (List ℕ) → List ℕ
  | .out, chunks => ((C.crypter S).run S.ctx ((C.zipper S).run S.stream chunks).1).1
  | .inn, chunks =>
      ((C.unzipper S).run S.stream ((C.decrypter S).run S.ctx chunks.flatten).1).1

/-- Both on the pieces that are read. -/
def chunkStream : SlinkWay → Transducer (κ × ζ) (List ℕ) ℕ
  | .out => ((C.zipper S).comp (C.crypter S)).swap
  | .inn => ((C.decrypter S).comp (C.unzipper S)).onWords

theorem image_eq (way : SlinkWay) :
    C.image S way = fun chunks => ((C.chunkStream S way).run (S.ctx, S.stream) chunks).1 := by
  funext chunks
  cases way with
  | out =>
      rw [chunkStream, Transducer.run_swap, Prod.swap_prod_mk, Transducer.run_comp]
      rfl
  | inn =>
      rw [chunkStream, Transducer.run_onWords, Transducer.run_comp]
      rfl

end SlinkCodec

namespace SlinkWorld

variable {κ ζ : Type*} {C : SlinkCodec κ ζ} {S : SlinkSettings κ ζ} {way : SlinkWay}
  {w w' w'' : SlinkWorld κ ζ} {left : List ℕ} {st : κ × ζ}

/-- The other direction and its buffer are as they were. -/
structure Apart (way : SlinkWay) (w w' : SlinkWorld κ ζ) : Prop where
  state : w'.state way.other = w.state way.other
  mem : w'.mem way.other.buf = w.mem way.other.buf

theorem Apart.refl (way : SlinkWay) (w : SlinkWorld κ ζ) : Apart way w w := ⟨rfl, rfl⟩

theorem Apart.trans (h : Apart way w w') (h' : Apart way w' w'') : Apart way w w'' :=
  ⟨h'.state.trans h.state, h'.mem.trans h.mem⟩

theorem other_ne (way : SlinkWay) : way.other ≠ way := by cases way <;> exact SlinkWay.noConfusion

theorem apart_set (w : SlinkWorld κ ζ) (way : SlinkWay) (new : SlinkState κ ζ) :
    Apart way w (w.set way new) := ⟨Function.update_of_ne (other_ne way) _ _, rfl⟩

theorem apart_store (w : SlinkWorld κ ζ) {p : SlinkPtr} (d : List ℕ) (h : way.other.buf ≠ p) :
    Apart way w { w with mem := w.mem.store p d } := ⟨rfl, SlinkMem.store_of_ne _ _ h⟩

theorem apart_stop (w : SlinkWorld κ ζ) (e : SlinkStop) : Apart way w (w.stop e) := ⟨rfl, rfl⟩

@[simp]
theorem set_state (w : SlinkWorld κ ζ) (way : SlinkWay) (new : SlinkState κ ζ) :
    (w.set way new).state way = new := Function.update_self _ _ _

@[simp]
theorem set_mem (w : SlinkWorld κ ζ) (way : SlinkWay) (new : SlinkState κ ζ) :
    (w.set way new).mem = w.mem := rfl

@[simp]
theorem set_stopped (w : SlinkWorld κ ζ) (way : SlinkWay) (new : SlinkState κ ζ) :
    (w.set way new).stopped = w.stopped := rfl

@[simp]
theorem logOp_state (w : SlinkWorld κ ζ) (way : SlinkWay) (op : PipeOp ℕ ℕ) :
    (w.logOp way op).state way = { w.state way with log := (w.state way).log ++ [op] } :=
  set_state _ _ _

@[simp]
theorem logOp_mem (w : SlinkWorld κ ζ) (way : SlinkWay) (op : PipeOp ℕ ℕ) :
    (w.logOp way op).mem = w.mem := rfl

@[simp]
theorem logOp_stopped (w : SlinkWorld κ ζ) (way : SlinkWay) (op : PipeOp ℕ ℕ) :
    (w.logOp way op).stopped = w.stopped := rfl

/-- Between two callbacks: what is left to write of the image is pending. -/
structure Flows (C : SlinkCodec κ ζ) (S : SlinkSettings κ ζ) (way : SlinkWay)
    (w : SlinkWorld κ ζ) : Prop where
  crypt : (w.state way).crypt = S.crypt
  zip : (w.state way).zip = S.zip
  carries : ∃ left, Carries (C.image S way) (w.state way).log left ∧
    (w.stopped = none → left = w.pending way)
  codec : w.stopped = none → ((C.chunkStream S way).run (S.ctx, S.stream)
    (chunks (w.state way).log)).2 = ((w.state way).ctx, (w.state way).stream)
  readCb : w.stopped = none → ((w.state way).readCb = true ↔ (w.state way).len = 0)
  writeCb : w.stopped = none → ((w.state way).writeCb = true ↔ (w.state way).len ≠ 0)
  assertion : w.stopped ≠ some .assertion

/-- Within a callback that reads: what is left to write, and the states of the codec when it is. -/
structure Works (C : SlinkCodec κ ζ) (S : SlinkSettings κ ζ) (way : SlinkWay)
    (w : SlinkWorld κ ζ) (left : List ℕ) (st : κ × ζ) : Prop where
  crypt : (w.state way).crypt = S.crypt
  zip : (w.state way).zip = S.zip
  carries : Carries (C.image S way) (w.state way).log left
  codec : ((C.chunkStream S way).run (S.ctx, S.stream) (chunks (w.state way).log)).2 = st
  len : (w.state way).len = 0
  readCb : (w.state way).readCb = true
  writeCb : (w.state way).writeCb = false
  stopped : w.stopped = none

theorem Works.stop (h : Works C S way w left st) {e : SlinkStop} (he : e ≠ .assertion) :
    Flows C S way (w.stop e) where
  crypt := h.crypt
  zip := h.zip
  carries := ⟨left, h.carries, fun hs => by cases hs⟩
  codec hs := by cases hs
  readCb hs := by cases hs
  writeCb hs := by cases hs
  assertion hs := he (Option.some.inj hs)

theorem pending_eq_nil (h : (w.state way).len = 0) : w.pending way = [] := by
  rw [pending, h, SlinkMem.load, List.take_zero]

theorem Works.flows (h : Works C S way w [] ((w.state way).ctx, (w.state way).stream)) :
    Flows C S way w where
  crypt := h.crypt
  zip := h.zip
  carries := ⟨[], h.carries, fun _ => (pending_eq_nil h.len).symm⟩
  codec _ := h.codec
  readCb _ := iff_of_true h.readCb h.len
  writeCb _ := iff_of_false (by rw [h.writeCb]; exact Bool.false_ne_true) (not_not_intro h.len)
  assertion hs := by
    rw [h.stopped] at hs
    cases hs

theorem Flows.works (h : Flows C S way w) (hs : w.stopped = none)
    (hr : (w.state way).readCb = true) :
    Works C S way w [] ((w.state way).ctx, (w.state way).stream) := by
  have hlen := (h.readCb hs).mp hr
  obtain ⟨left, hleft, heq⟩ := h.carries
  refine ⟨h.crypt, h.zip, ?_, h.codec hs, hlen, hr, ?_, hs⟩
  · rwa [heq hs, pending_eq_nil hlen] at hleft
  · exact Bool.eq_false_iff.mpr fun hw => (h.writeCb hs).mp hw hlen

/-- Memory and the states of the codec may change within a callback. -/
theorem Works.of_state (h : Works C S way w left st) {ctx : κ} {stream : ζ}
    (hstate : w'.state way = { w.state way with ctx := ctx, stream := stream })
    (hstopped : w'.stopped = w.stopped) : Works C S way w' left st := by
  constructor
  · rw [hstate, ← h.crypt]
  · rw [hstate, ← h.zip]
  · rw [hstate]
    exact h.carries
  · rw [hstate]
    exact h.codec
  · rw [hstate]
    exact h.len
  · rw [hstate]
    exact h.readCb
  · rw [hstate]
    exact h.writeCb
  · rw [hstopped, h.stopped]

theorem Works.wrote {out : List ℕ} (h : Works C S way w (out ++ left) st) :
    Works C S way (w.logOp way (.wrote out)) left st := by
  constructor <;> simp only [logOp_state, logOp_stopped]
  · exact h.crypt
  · exact h.zip
  · exact h.carries.wrote
  · rw [chunks_append_wrote]
    exact h.codec
  · exact h.len
  · exact h.readCb
  · exact h.writeCb
  · exact h.stopped

theorem Works.got (h : Works C S way w [] st) (buf : SlinkPtr) (bytes : List ℕ) :
    Works C S way (w.got way buf bytes) ((C.chunkStream S way).step st bytes).1
      ((C.chunkStream S way).step st bytes).2 := by
  have hrun := Transducer.run_append (C.chunkStream S way) (S.ctx, S.stream)
    (chunks (w.state way).log) [bytes]
  rw [h.codec, Transducer.run_singleton] at hrun
  constructor <;> simp only [SlinkWorld.got, logOp_state, logOp_stopped]
  · exact h.crypt
  · exact h.zip
  · refine h.carries.read bytes ?_
    rw [SlinkCodec.image_eq]
    exact congrArg Prod.fst hrun
  · rw [chunks_append_read]
    rw [hrun]
  · exact h.len
  · exact h.readCb
  · exact h.writeCb
  · exact h.stopped

/-- The `write` at the end of a round: the direction goes on with nothing left, or the rest is
pending, or the process ends. -/
theorem Works.writeFresh {blen : ℕ} (h : Works C S way w (w.mem.load way.buf 0 blen)
      ((w.state way).ctx, (w.state way).stream)) {io : SlinkIo} {go : Bool}
    (heq : w.writeFresh way blen io = (w', go)) :
    Apart way w w' ∧ (go = true → (w'.mem = w.mem ∧ Works C S way w' []
      ((w'.state way).ctx, (w'.state way).stream))) ∧ (go = false → Flows C S way w') := by
  unfold SlinkWorld.writeFresh at heq
  split at heq
  · obtain ⟨rfl, rfl⟩ := Prod.mk.inj heq
    exact ⟨apart_stop _ _, Bool.noConfusion, fun _ => h.stop SlinkStop.noConfusion⟩
  · rename_i ret hret
    have hsplit := List.take_append_drop ret (w.mem.load way.buf 0 blen)
    rw [← hsplit] at h
    have hw := h.wrote
    split at heq
    · rename_i hlt
      obtain ⟨rfl, rfl⟩ := Prod.mk.inj heq
      refine ⟨(apart_set _ _ _).trans (apart_set _ _ _), Bool.noConfusion, fun _ => ?_⟩
      have hlen : blen - ret ≠ 0 := by omega
      rw [SlinkMem.drop_load, Nat.zero_add] at hw
      constructor <;> simp only [set_state, set_stopped]
      · exact hw.crypt
      · exact hw.zip
      · refine ⟨_, hw.carries, fun _ => ?_⟩
        simp only [pending, set_state, set_mem, logOp_mem]
      · exact fun _ => by simpa using hw.codec
      · exact fun _ => iff_of_false Bool.false_ne_true hlen
      · exact fun _ => iff_of_true trivial hlen
      · exact fun hs => by cases h.stopped.symm.trans hs
    · rename_i hge
      obtain ⟨rfl, rfl⟩ := Prod.mk.inj heq
      have hnil : (w.mem.load way.buf 0 blen).drop ret = [] := by
        rw [SlinkMem.drop_load, Nat.sub_eq_zero_of_le (Nat.le_of_not_lt hge), SlinkMem.load,
          List.take_zero]
      rw [hnil] at hw
      refine ⟨apart_set _ _ _, fun _ => ⟨rfl, ?_⟩, Bool.noConfusion⟩
      simpa using hw

theorem Flows.stop (h : Flows C S way w) {e : SlinkStop} (he : e ≠ .assertion) :
    Flows C S way (w.stop e) where
  crypt := h.crypt
  zip := h.zip
  carries := by
    obtain ⟨left, hleft, -⟩ := h.carries
    exact ⟨left, hleft, fun hs => by cases hs⟩
  codec hs := by cases hs
  readCb hs := by cases hs
  writeCb hs := by cases hs
  assertion hs := he (Option.some.inj hs)

theorem apart_writePending (w : SlinkWorld κ ζ) (way : SlinkWay) (io : SlinkIo) :
    Apart way w (w.writePending way io) := by
  unfold writePending
  split
  · exact apart_stop _ _
  · split
    · exact apart_stop _ _
    · exact .refl _ _
    · dsimp only
      split <;> exact (apart_set _ _ _).trans (apart_set _ _ _)

theorem Flows.wrote {out : List ℕ} {ofs len : ℕ} {r wr : Bool} (h : Flows C S way w)
    (hs : w.stopped = none) (hpending : w.pending way = out ++ w'.pending way)
    (hstate : w'.state way = { w.state way with
      log := (w.state way).log ++ [.wrote out]
      ofs := ofs, len := len, readCb := r, writeCb := wr })
    (hstopped : w'.stopped = w.stopped) (hr : r = true ↔ len = 0) (hwr : wr = true ↔ len ≠ 0) :
    Flows C S way w' := by
  obtain ⟨left, hleft, heq⟩ := h.carries
  rw [heq hs, hpending] at hleft
  constructor
  · rw [hstate, ← h.crypt]
  · rw [hstate, ← h.zip]
  · rw [hstate]
    exact ⟨_, hleft.wrote, fun _ => rfl⟩
  · intro _
    rw [hstate, chunks_append_wrote]
    exact h.codec hs
  · rw [hstate]
    exact fun _ => hr
  · rw [hstate]
    exact fun _ => hwr
  · rw [hstopped]
    exact h.assertion

theorem Flows.writePending (h : Flows C S way w) (hs : w.stopped = none)
    (hw : (w.state way).writeCb = true) (io : SlinkIo) : Flows C S way (w.writePending way io) := by
  have hlen := (h.writeCb hs).mp hw
  have hread : (w.state way).readCb ≠ true := fun hr => hlen ((h.readCb hs).mp hr)
  unfold SlinkWorld.writePending
  rw [if_neg hlen]
  split
  · exact h.stop SlinkStop.noConfusion
  · exact h
  · rename_i ret hpos hret
    have hsplit := (List.take_append_drop ret (w.pending way)).symm
    nth_rewrite 3 [pending] at hsplit
    rw [SlinkMem.drop_load] at hsplit
    dsimp only
    rw [logOp_state]
    split
    · rename_i hdone
      rw [hdone, SlinkMem.load, List.take_zero] at hsplit
      refine h.wrote hs (hsplit.trans ?_) (set_state _ _ _) rfl (iff_of_true rfl rfl)
        (iff_of_false Bool.false_ne_true (not_not_intro rfl))
      exact congrArg _ (pending_eq_nil (congrArg SlinkState.len (set_state _ _ _))).symm
    · rename_i hmore
      refine h.wrote hs ?_ (set_state _ _ _) rfl (iff_of_false hread hmore) (iff_of_true hw hmore)
      simp only [pending, set_state, set_mem, logOp_mem]
      exact hsplit

/-- A buffer with the bytes that the next part of a round works on. -/
def Holds (w : SlinkWorld κ ζ) (buf : SlinkPtr) (d : List ℕ) : Prop :=
  w.mem.load buf 0 d.length = d

theorem holds_store (w : SlinkWorld κ ζ) (buf : SlinkPtr) (d : List ℕ) (way : SlinkWay)
    (new : SlinkState κ ζ) : ({ w with mem := w.mem.store buf d }.set way new).Holds buf d :=
  SlinkMem.load_store_self _ _ _

theorem apart_store_set (w : SlinkWorld κ ζ) {buf : SlinkPtr} (d : List ℕ)
    (new : SlinkState κ ζ) (h : way.other.buf ≠ buf) :
    Apart way w ({ w with mem := w.mem.store buf d }.set way new) :=
  (apart_store w d h).trans (apart_set _ _ _)

theorem holds_got (w : SlinkWorld κ ζ) (way : SlinkWay) (buf : SlinkPtr) (bytes : List ℕ) :
    (w.got way buf bytes).Holds buf bytes := SlinkMem.load_store_self _ _ _

/-- What `deflate` makes of the data, in the buffer that it goes to. -/
theorem deflateData_ok {buf buf' : SlinkPtr} {d : List ℕ} {blen : ℕ}
    (hzip : (w.state .out).zip = S.zip) (hd : w.Holds buf d)
    (h : w.deflateData C buf d.length = .ok (w', buf', blen)) :
    Apart .out w w' ∧ w'.stopped = w.stopped ∧
      w'.state .out = { w.state .out with
        stream := ((C.zipper S).step (w.state .out).stream d).2 } ∧
      blen = ((C.zipper S).step (w.state .out).stream d).1.length ∧
      w'.Holds buf' ((C.zipper S).step (w.state .out).stream d).1 ∧
      buf' = if (w.state .out).zip then if (w.state .out).crypt then .tmp2Buf else .outBuf
        else buf := by
  unfold deflateData at h
  dsimp only at h
  rw [Holds] at hd
  split at h
  · rename_i hz
    have hzipper : C.zipper S = C.compressor := if_pos (hzip ▸ hz)
    rw [hd] at h
    split at h
    · cases h
    · rename_i z hdeflate
      split at h
      · cases h
      split at h
      · cases h
      rename_i hall
      cases h
      have hstep := C.deflate_step hdeflate
      rw [List.take_of_length_le (by omega)] at hstep
      rw [hzipper, ← hstep, if_pos hz]
      refine ⟨apart_store_set w _ _ ?_, rfl, set_state _ _ _, rfl, holds_store _ _ _ _ _, rfl⟩
      split <;> exact SlinkPtr.noConfusion
  · rename_i hz
    have hzipper : C.zipper S = Transducer.pass.onWords :=
      if_neg (fun hs => hz (hzip.trans hs))
    have hstep : (Transducer.pass.onWords : Transducer ζ (List ℕ) ℕ).step (w.state .out).stream d =
        (d, (w.state .out).stream) := Transducer.run_pass _ _
    cases h
    rw [hzipper, hstep, if_neg hz]
    exact ⟨.refl _ _, rfl, rfl, rfl, hd, rfl⟩

theorem deflateData_error {buf : SlinkPtr} {ret : ℕ} {e : SlinkStop}
    (h : w.deflateData C buf ret = .error e) : e ≠ .assertion := by
  unfold deflateData at h
  dsimp only at h
  rintro rfl
  split at h
  · split at h
    · cases h
    · split at h
      · cases h
      · split at h <;> cases h
  · cases h

/-- Encrypted data is in the buffer that is written. -/
theorem encryptData_ok {buf : SlinkPtr} {d : List ℕ} (hcrypt : (w.state .out).crypt = S.crypt)
    (hd : w.Holds buf d) (hbuf : (w.state .out).crypt = false → buf = .outBuf)
    (h : w.encryptData C buf d.length = .ok w') :
    Apart .out w w' ∧ w'.stopped = w.stopped ∧
      w'.state .out = { w.state .out with
        ctx := ((C.crypter S).run (w.state .out).ctx d).2 } ∧
      ((C.crypter S).run (w.state .out).ctx d).1.length = d.length ∧
      w'.Holds .outBuf ((C.crypter S).run (w.state .out).ctx d).1 := by
  unfold encryptData at h
  dsimp only at h
  rw [Holds] at hd
  split at h
  · rename_i hc
    have hcrypter : C.crypter S = C.encryptor := if_pos (hcrypt ▸ hc)
    rw [hd] at h
    split at h
    · cases h
    · rename_i e ctx hupdate
      split at h
      · cases h
      cases h
      rw [hcrypter, ← C.encryptUpdate_run hupdate]
      exact ⟨apart_store_set w _ _ SlinkPtr.noConfusion, rfl, set_state _ _ _,
        not_not.mp ‹_›, holds_store _ _ _ _ _⟩
  · rename_i hc
    have hcrypter : C.crypter S = .pass := if_neg (fun hs => hc (hcrypt.trans hs))
    cases h
    rw [hcrypter, Transducer.run_pass]
    exact ⟨.refl _ _, rfl, rfl, rfl, hbuf (Bool.eq_false_iff.mpr hc) ▸ hd⟩

theorem encryptData_error {buf : SlinkPtr} {d : List ℕ} {e : SlinkStop} (hd : w.Holds buf d)
    (h : w.encryptData C buf d.length = .error e) : e ≠ .assertion := by
  unfold encryptData at h
  dsimp only at h
  rw [Holds] at hd
  rintro rfl
  split at h
  · rw [hd] at h
    split at h
    · cases h
    · rename_i e ctx hupdate
      have hrun := C.encryptUpdate_run hupdate
      have hlen := C.encryptor_lengthwise.length_run (w.state .out).ctx d
      rw [← hrun] at hlen
      rw [if_neg (not_not_intro hlen)] at h
      cases h
  · cases h

theorem readBuf_ne (w : SlinkWorld κ ζ) (way : SlinkWay) :
    way.other.buf ≠ w.readBuf way way.buf := by
  unfold readBuf
  split <;> cases way <;> exact SlinkPtr.noConfusion

theorem readBuf_of_crypt {buf : SlinkPtr} (h : (w.state way).crypt = true) :
    w.readBuf way buf = .tmpBuf := if_pos (.inr h)

theorem readBuf_of_plain {buf : SlinkPtr} (hzip : (w.state way).zip = false)
    (hcrypt : (w.state way).crypt = false) : w.readBuf way buf = buf := by
  rw [readBuf, hzip, hcrypt]
  exact if_neg (by simp)

theorem readBuf_eq {buf buf' : SlinkPtr}
    (h : (w.state way).zip = false → (w.state way).crypt = false → buf = buf') :
    w.readBuf way buf = w.readBuf way buf' := by
  unfold readBuf
  split
  · rfl
  · rename_i hplain
    exact h (Bool.eq_false_iff.mpr fun hz => hplain (.inl hz))
      (Bool.eq_false_iff.mpr fun hc => hplain (.inr hc))

theorem apart_got {buf : SlinkPtr} (w : SlinkWorld κ ζ) (bytes : List ℕ)
    (h : way.other.buf ≠ buf) : Apart way w (w.got way buf bytes) :=
  (apart_store w bytes h).trans (apart_set _ _ _)

theorem got_state (w : SlinkWorld κ ζ) (way : SlinkWay) (buf : SlinkPtr) (bytes : List ℕ) :
    (w.got way buf bytes).state way =
      { w.state way with log := (w.state way).log ++ [.read bytes] } := set_state _ _ _

/-- After a read: the image of the bytes is what is left to write. -/
structure Took (C : SlinkCodec κ ζ) (S : SlinkSettings κ ζ) (way : SlinkWay)
    (w : SlinkWorld κ ζ) (buf : SlinkPtr) (bytes : List ℕ) : Prop where
  works : Works C S way w
    ((C.chunkStream S way).step ((w.state way).ctx, (w.state way).stream) bytes).1
    ((C.chunkStream S way).step ((w.state way).ctx, (w.state way).stream) bytes).2
  holds : w.Holds buf bytes
  buf : buf = w.readBuf way way.buf

theorem Works.took (h : Works C S way w [] ((w.state way).ctx, (w.state way).stream))
    {buf : SlinkPtr} (hbuf : buf = w.readBuf way way.buf) (bytes : List ℕ) :
    Apart way w (w.got way buf bytes) ∧ Took C S way (w.got way buf bytes) buf bytes := by
  have hworks := h.got buf bytes
  have hstate := got_state w way buf bytes
  refine ⟨apart_got w _ (hbuf ▸ readBuf_ne w way), ?_, holds_got w way buf bytes, ?_⟩
  · rw [show (w.state way).ctx = ((w.got way buf bytes).state way).ctx by rw [hstate],
      show (w.state way).stream = ((w.got way buf bytes).state way).stream by rw [hstate]] at hworks
    exact hworks
  · refine hbuf.trans ?_
    unfold readBuf
    rw [hstate]

/-- What is left to write of the image of the bytes is in `out_state.buf`. -/
theorem Took.encrypted {buf buf' : SlinkPtr} {bytes : List ℕ} {blen : ℕ} {w₁ w₂ : SlinkWorld κ ζ}
    (h : Took C S .out w buf bytes)
    (hdef : w.deflateData C buf bytes.length = .ok (w₁, buf', blen))
    (henc : w₁.encryptData C buf' blen = .ok w₂) :
    Apart .out w w₂ ∧ Works C S .out w₂ (w₂.mem.load .outBuf 0 blen)
        ((w₂.state .out).ctx, (w₂.state .out).stream) ∧
      (S.crypt = false → buf' = .outBuf) := by
  have hworks := h.works
  obtain ⟨hapart, hstop, hstate, rfl, hholds, hbuf'⟩ := deflateData_ok hworks.zip h.holds hdef
  have hcrypt : (w.state .out).crypt = false → buf' = .outBuf := by
    intro hc
    rw [hbuf', hc]
    split
    · rfl
    · rename_i hz
      exact h.buf.trans (readBuf_of_plain (Bool.eq_false_iff.mpr hz) hc)
  obtain ⟨hapart', hstop', hstate', hlen, hholds'⟩ := encryptData_ok (S := S)
    (by rw [hstate, ← hworks.crypt]) hholds (by rw [hstate]; exact hcrypt) henc
  rw [hstate] at hstate' hlen hholds'
  have hstep : (C.chunkStream S .out).step ((w.state .out).ctx, (w.state .out).stream) bytes =
      (w₂.mem.load .outBuf 0 ((C.zipper S).step (w.state .out).stream bytes).1.length,
        (w₂.state .out).ctx, (w₂.state .out).stream) := by
    rw [hstate', ← hlen, hholds']
    rfl
  rw [hstep] at hworks
  exact ⟨hapart.trans hapart', hworks.of_state hstate' (hstop'.trans hstop), hworks.crypt ▸ hcrypt⟩

theorem Took.encrypt_error {buf buf' : SlinkPtr} {bytes : List ℕ} {blen : ℕ} {w₁ : SlinkWorld κ ζ}
    {e : SlinkStop} (h : Took C S .out w buf bytes)
    (hdef : w.deflateData C buf bytes.length = .ok (w₁, buf', blen))
    (henc : w₁.encryptData C buf' blen = .error e) :
    Apart .out w (w₁.stop e) ∧ Flows C S .out (w₁.stop e) := by
  obtain ⟨hapart, hstop, hstate, rfl, hholds, -⟩ := deflateData_ok h.works.zip h.holds hdef
  exact ⟨hapart.trans (apart_stop _ _),
    (h.works.of_state hstate hstop).stop (encryptData_error hholds henc)⟩

theorem Works.readDataLoop (h : Works C S .out w [] ((w.state .out).ctx, (w.state .out).stream))
    {buf : SlinkPtr} (hbuf : buf = w.readBuf .out .outBuf) (reads : List SlinkRead)
    (writes : List SlinkIo) : Apart .out w (w.readDataLoop C buf reads writes) ∧
      Flows C S .out (w.readDataLoop C buf reads writes) := by
  induction reads generalizing w buf writes with
  | nil => exact ⟨.refl _ _, h.flows⟩
  | cons r reads ih =>
      unfold SlinkWorld.readDataLoop
      split
      · exact ⟨apart_stop _ _, h.stop SlinkStop.noConfusion⟩
      · exact ⟨.refl _ _, h.flows⟩
      · rename_i ret hpos hret
        obtain rfl := SlinkRead.length_bytes hret (fun h0 => hpos h0)
        obtain ⟨hgot, htook⟩ := h.took hbuf r.bytes
        dsimp only
        split
        · rename_i e hdef
          exact ⟨hgot.trans (apart_stop _ _), htook.works.stop (deflateData_error hdef)⟩
        · rename_i w₁ buf' blen hdef
          split
          · rename_i e henc
            obtain ⟨hapart, hflows⟩ := htook.encrypt_error hdef henc
            exact ⟨hgot.trans hapart, hflows⟩
          · rename_i w₂ henc
            obtain ⟨hapart, hworks₂, hbuf₂⟩ := htook.encrypted hdef henc
            split
            · rename_i w₃ hwrite
              obtain ⟨hapart', hgo, -⟩ := hworks₂.writeFresh hwrite
              obtain ⟨hmem, hworks₃⟩ := hgo rfl
              have hbuf₃ : w₃.readBuf .out buf' = w₃.readBuf .out .outBuf :=
                readBuf_eq fun _ hc => hbuf₂ (hworks₃.crypt.symm.trans hc)
              obtain ⟨hapart₃, hflows⟩ := ih hworks₃ hbuf₃ writes.tail
              exact ⟨hgot.trans (hapart.trans (hapart'.trans hapart₃)), hflows⟩
            · rename_i w₃ hwrite
              obtain ⟨hapart', -, hstop⟩ := hworks₂.writeFresh hwrite
              exact ⟨hgot.trans (hapart.trans hapart'), hstop rfl⟩

/-- Decrypted data is where `inflate` takes it from, or in `in_state.buf`. -/
theorem decryptNet_ok {buf buf' : SlinkPtr} {d : List ℕ}
    (hcrypt : (w.state .inn).crypt = S.crypt) (hd : w.Holds buf d)
    (hbuf : (w.state .inn).crypt = true → buf = .tmpBuf)
    (h : w.decryptNet C buf d.length = .ok (w', buf')) :
    Apart .inn w w' ∧ w'.stopped = w.stopped ∧
      w'.state .inn = { w.state .inn with
        ctx := ((C.decrypter S).run (w.state .inn).ctx d).2 } ∧
      ((C.decrypter S).run (w.state .inn).ctx d).1.length = d.length ∧
      w'.Holds buf' ((C.decrypter S).run (w.state .inn).ctx d).1 ∧
      buf' = if (w.state .inn).crypt then if (w.state .inn).zip then .tmp2Buf else .inBuf
        else buf := by
  unfold decryptNet at h
  dsimp only at h
  rw [Holds] at hd
  split at h
  · rename_i hc
    have hdecrypter : C.decrypter S = C.decryptor := if_pos (hcrypt ▸ hc)
    rw [hbuf hc] at hd
    rw [hd] at h
    split at h
    · cases h
    · rename_i e ctx hupdate
      split at h
      · cases h
      cases h
      rw [hdecrypter, ← C.decryptUpdate_run hupdate, if_pos hc]
      refine ⟨apart_store_set w _ _ ?_, rfl, set_state _ _ _, not_not.mp ‹_›,
        holds_store _ _ _ _ _, rfl⟩
      split <;> exact SlinkPtr.noConfusion
  · rename_i hc
    have hdecrypter : C.decrypter S = .pass := if_neg (fun hs => hc (hcrypt.trans hs))
    cases h
    rw [hdecrypter, Transducer.run_pass, if_neg hc]
    exact ⟨.refl _ _, rfl, rfl, rfl, hd, rfl⟩

theorem decryptNet_error {buf : SlinkPtr} {d : List ℕ} {e : SlinkStop} (hd : w.Holds buf d)
    (hbuf : (w.state .inn).crypt = true → buf = .tmpBuf)
    (h : w.decryptNet C buf d.length = .error e) : e ≠ .assertion := by
  unfold decryptNet at h
  dsimp only at h
  rw [Holds] at hd
  rintro rfl
  split at h
  · rename_i hc
    rw [hbuf hc] at hd
    rw [hd] at h
    split at h
    · cases h
    · rename_i e ctx hupdate
      have hrun := C.decryptUpdate_run hupdate
      have hlen := C.decryptor_lengthwise.length_run (w.state .inn).ctx d
      rw [← hrun] at hlen
      rw [if_neg (not_not_intro hlen)] at h
      cases h
  · cases h

/-- All of what is decompressed so far is sent, or the process stops with a part of it sent. -/
theorem Works.flushNet {blen : ℕ} {rest : List ℕ}
    (h : Works C S .inn w (w.mem.load .inBuf 0 blen ++ rest) st) {writes : List SlinkIo}
    {r : Option (List SlinkIo)} (heq : w.flushNet blen writes = (w', r)) :
    Apart .inn w w' ∧ w'.mem = w.mem ∧
      (w'.state .inn).stream = (w.state .inn).stream ∧ (w'.state .inn).ctx = (w.state .inn).ctx ∧
      (r = none → Flows C S .inn w') ∧ (r ≠ none → Works C S .inn w' rest st) := by
  unfold SlinkWorld.flushNet at heq
  split at heq
  · rename_i hzero
    cases heq
    refine ⟨.refl _ _, rfl, rfl, rfl, (fun hr => by cases hr), fun _ => ?_⟩
    rw [hzero, SlinkMem.load, List.take_zero, List.nil_append] at h
    exact h
  · split at heq
    · rename_i sent e hsend
      cases heq
      obtain ⟨⟨unsent, hdata⟩, he⟩ := sendDataBlocking_error hsend
      rw [← hdata, List.append_assoc] at h
      have hstate := logOp_state w .inn (.wrote sent)
      exact ⟨(apart_set _ _ _).trans (apart_stop _ _), rfl, congrArg (·.stream) hstate,
        congrArg (·.ctx) hstate, fun _ => h.wrote.stop he, fun hr => absurd rfl hr⟩
    · rename_i sent writes' hsend
      cases heq
      obtain rfl := sendDataBlocking_ok hsend
      have hstate := logOp_state w .inn (.wrote (w.mem.load .inBuf 0 blen))
      exact ⟨apart_set _ _ _, rfl, congrArg (·.stream) hstate, congrArg (·.ctx) hstate,
        (fun hr => by cases hr), fun _ => h.wrote⟩

theorem inflateOnce_state (w : SlinkWorld κ ζ) (z : ZCall ζ) :
    (w.inflateOnce z).state .inn = { w.state .inn with stream := z.stream } := set_state _ _ _

theorem load_inflateOnce (w : SlinkWorld κ ζ) (z : ZCall ζ) {p : SlinkPtr} (hne : p ≠ .inBuf)
    (ofs len : ℕ) : (w.inflateOnce z).mem.load p ofs len = w.mem.load p ofs len :=
  congrArg (fun l => (l.drop ofs).take len) (SlinkMem.store_of_ne w.mem z.out hne)

/-- The image of the input that `inflate` is given is sent up to the last of it, which is left in
`in_state.buf`. -/
theorem Works.inflateLoop {nextIn : SlinkPtr} {ofs availIn blen : ℕ} {writes : List SlinkIo}
    {r : Option (ℕ × List SlinkIo)} (hne : nextIn ≠ .inBuf) (hin : availIn ≠ 0)
    (h : Works C S .inn w
      (C.decompressor.run (w.state .inn).stream (w.mem.load nextIn ofs availIn)).1 st)
    (heq : w.inflateLoop C nextIn ofs availIn blen writes = (w', r)) :
    Apart .inn w w' ∧ (r = none → Flows C S .inn w') ∧
      ∀ blen' writes', r = some (blen', writes') →
        Works C S .inn w' (w'.mem.load .inBuf 0 blen') st ∧
        (w'.state .inn).ctx = (w.state .inn).ctx ∧ (w'.state .inn).stream =
          (C.decompressor.run (w.state .inn).stream (w.mem.load nextIn ofs availIn)).2 := by
  induction availIn using Nat.strongRecOn generalizing w ofs blen writes with
  | _ availIn ih =>
      rw [SlinkWorld.inflateLoop, if_neg hin] at heq
      split at heq
      · cases heq
        exact ⟨apart_stop _ _, fun _ => h.stop SlinkStop.noConfusion, by rintro _ _ ⟨⟩⟩
      · rename_i z hinflate
        have hrun := C.decompressor.run_append (w.state .inn).stream
          ((w.mem.load nextIn ofs availIn).take z.consumed)
          ((w.mem.load nextIn ofs availIn).drop z.consumed)
        rw [List.take_append_drop, ← C.inflate_run hinflate, SlinkMem.drop_load] at hrun
        rw [hrun] at h ⊢
        have hstate := inflateOnce_state w z
        have hworks : Works C S .inn (w.inflateOnce z) _ st := h.of_state hstate rfl
        have hapart : Apart .inn w (w.inflateOnce z) :=
          apart_store_set w _ _ SlinkPtr.noConfusion
        have hout : z.out = (w.inflateOnce z).mem.load .inBuf 0 z.out.length :=
          (SlinkMem.load_store_self _ _ _).symm
        dsimp only at heq hworks ⊢
        split at heq
        · rename_i hdone
          cases heq
          have hrest : w.mem.load nextIn (ofs + z.consumed) (availIn - z.consumed) = [] := by
            rw [hdone, SlinkMem.load, List.take_zero]
          rw [hrest, Transducer.run_nil, List.append_nil, hout] at hworks
          rw [hrest, Transducer.run_nil]
          refine ⟨hapart, (fun hr => by cases hr), ?_⟩
          rintro _ _ ⟨⟩
          exact ⟨hworks, by rw [hstate], by rw [hstate]⟩
        · rename_i hmore
          rw [hout] at hworks
          split at heq
          · rename_i w₂ hflush
            cases heq
            obtain ⟨hapart', -, -, -, hstop, -⟩ := hworks.flushNet hflush
            exact ⟨hapart.trans hapart', fun _ => hstop rfl, by rintro _ _ ⟨⟩⟩
          · rename_i w₂ writes₂ hflush
            obtain ⟨hapart', hmem, hstream, hctx, -, hgo⟩ := hworks.flushNet hflush
            have hworks₂ := hgo (by rintro ⟨⟩)
            have hinput : w₂.mem.load nextIn (ofs + z.consumed) (availIn - z.consumed) =
                w.mem.load nextIn (ofs + z.consumed) (availIn - z.consumed) := by
              rw [hmem, load_inflateOnce w z hne]
            have hnext : (w₂.state .inn).stream = z.stream := by rw [hstream, hstate]
            rw [← hinput, ← hnext] at hworks₂ ⊢
            have hlt : availIn - z.consumed < availIn := by
              have := C.inflate_consumed hinflate
              omega
            obtain ⟨hapart₂, hstop, hok⟩ := ih _ hlt hmore hworks₂ heq
            refine ⟨hapart.trans (hapart'.trans hapart₂), hstop, fun blen' writes' hr => ?_⟩
            obtain ⟨hleft, hctx', hstream'⟩ := hok blen' writes' hr
            exact ⟨hleft, hctx'.trans (by rw [hctx, hstate]), hstream'⟩

theorem Took.crypt_buf {buf : SlinkPtr} {bytes : List ℕ} (h : Took C S way w buf bytes)
    (hc : (w.state way).crypt = true) : buf = .tmpBuf := h.buf.trans (readBuf_of_crypt hc)

/-- What is left to write of the image of the bytes is in `in_state.buf`. -/
theorem Took.inflated {buf buf' : SlinkPtr} {bytes : List ℕ} {writes : List SlinkIo}
    {r : Option (ℕ × List SlinkIo)} {w₁ w₂ : SlinkWorld κ ζ} (h : Took C S .inn w buf bytes)
    (hne : bytes.length ≠ 0) (hdec : w.decryptNet C buf bytes.length = .ok (w₁, buf'))
    (hinf : w₁.inflateNet C buf' bytes.length writes = (w₂, r)) :
    Apart .inn w w₂ ∧ (S.zip = false → S.crypt = false → buf' = .inBuf) ∧
      (r = none → Flows C S .inn w₂) ∧ ∀ blen writes', r = some (blen, writes') →
        Works C S .inn w₂ (w₂.mem.load .inBuf 0 blen)
          ((w₂.state .inn).ctx, (w₂.state .inn).stream) := by
  have hworks := h.works
  obtain ⟨hapart, hstop, hstate, hlen, hholds, hbuf'⟩ :=
    decryptNet_ok hworks.crypt h.holds h.crypt_buf hdec
  have hzip : (w₁.state .inn).zip = S.zip := by rw [hstate, ← hworks.zip]
  have hplain : S.zip = false → buf' = .inBuf := by
    intro hz
    rw [hbuf', hworks.zip, hz]
    split
    · rfl
    · rename_i hc
      exact h.buf.trans (readBuf_of_plain (hworks.zip.trans hz) (Bool.eq_false_iff.mpr hc))
  rw [SlinkCodec.chunkStream, Transducer.onWords_step, Transducer.run_comp] at hworks
  have hworks₁ := hworks.of_state hstate hstop
  have hctx : (w₁.state .inn).ctx = ((C.decrypter S).run (w.state .inn).ctx bytes).2 := by
    rw [hstate]
  have hstream : (w₁.state .inn).stream = (w.state .inn).stream := by rw [hstate]
  rw [← hctx, ← hstream] at hworks₁
  rw [Holds, hlen] at hholds
  rw [← hholds] at hworks₁
  unfold inflateNet at hinf
  split at hinf
  · rename_i hz
    have hunzip : C.unzipper S = C.decompressor := if_pos (hzip ▸ hz)
    have hfrom : buf' ≠ .inBuf := by
      have hz' : (w.state .inn).zip = true := hworks.zip.trans (hzip.symm.trans hz)
      have htmp : buf = .tmpBuf := h.buf.trans (if_pos (.inl hz'))
      rw [hbuf', if_pos hz', htmp]
      split <;> exact SlinkPtr.noConfusion
    rw [hunzip] at hworks₁
    obtain ⟨hapart', hnone, hok⟩ := Works.inflateLoop hfrom hne hworks₁ hinf
    refine ⟨hapart.trans hapart', fun hf _ => hplain hf, hnone, fun blen writes' hr => ?_⟩
    obtain ⟨hleft, hctx', hstream'⟩ := hok blen writes' hr
    rw [hctx', hstream']
    exact hleft
  · rename_i hz
    have hz' : S.zip = false := hzip.symm.trans (Bool.eq_false_iff.mpr hz)
    have hunzip : C.unzipper S = .pass := if_neg (by rw [hz']; exact Bool.false_ne_true)
    rw [hunzip, Transducer.run_pass, hplain hz'] at hworks₁
    cases hinf
    refine ⟨hapart, fun hf _ => hplain hf, (fun hr => by cases hr), ?_⟩
    rintro _ _ ⟨⟩
    exact hworks₁

theorem Works.readNetLoop (h : Works C S .inn w [] ((w.state .inn).ctx, (w.state .inn).stream))
    {buf : SlinkPtr} (hbuf : buf = w.readBuf .inn .inBuf) (reads : List SlinkRead)
    (writes : List SlinkIo) : Apart .inn w (w.readNetLoop C buf reads writes) ∧
      Flows C S .inn (w.readNetLoop C buf reads writes) := by
  induction reads generalizing w buf writes with
  | nil => exact ⟨.refl _ _, h.flows⟩
  | cons r reads ih =>
      unfold SlinkWorld.readNetLoop
      split
      · exact ⟨apart_stop _ _, h.stop SlinkStop.noConfusion⟩
      · exact ⟨.refl _ _, h.flows⟩
      · rename_i ret hpos hret
        have hne : ret ≠ 0 := fun h0 => hpos h0
        obtain rfl := SlinkRead.length_bytes hret hne
        obtain ⟨hgot, htook⟩ := h.took hbuf r.bytes
        dsimp only
        split
        · rename_i e hdec
          exact ⟨hgot.trans (apart_stop _ _),
            htook.works.stop (decryptNet_error htook.holds htook.crypt_buf hdec)⟩
        · rename_i w₁ buf' hdec
          split
          · rename_i w₂ hinf
            obtain ⟨hapart, -, hnone, -⟩ := htook.inflated hne hdec hinf
            exact ⟨hgot.trans hapart, hnone rfl⟩
          · rename_i w₂ blen writes₂ hinf
            obtain ⟨hapart, hbuf₂, -, hok⟩ := htook.inflated hne hdec hinf
            have hworks₂ := hok blen writes₂ rfl
            split
            · rename_i hnothing
              rw [hnothing.2, SlinkMem.load, List.take_zero] at hworks₂
              exact ⟨hgot.trans hapart, hworks₂.flows⟩
            · split
              · rename_i w₃ hwrite
                obtain ⟨hapart', hgo, -⟩ := hworks₂.writeFresh hwrite
                obtain ⟨hmem, hworks₃⟩ := hgo rfl
                have hbuf₃ : w₃.readBuf .inn buf' = w₃.readBuf .inn .inBuf :=
                  readBuf_eq fun hz hc =>
                    hbuf₂ (hworks₃.zip.symm.trans hz) (hworks₃.crypt.symm.trans hc)
                obtain ⟨hapart₃, hflows⟩ := ih hworks₃ hbuf₃ writes₂.tail
                exact ⟨hgot.trans (hapart.trans (hapart'.trans hapart₃)), hflows⟩
              · rename_i w₃ hwrite
                obtain ⟨hapart', -, hstop⟩ := hworks₂.writeFresh hwrite
                exact ⟨hgot.trans (hapart.trans hapart'), hstop rfl⟩

/-- A callback of one direction leaves the other as it was. -/
theorem Flows.apart (h : Flows C S way.other w) (hs : w.stopped = none) (ha : Apart way w w')
    (hassert : w'.stopped ≠ some .assertion) : Flows C S way.other w' := by
  constructor
  · rw [ha.state]
    exact h.crypt
  · rw [ha.state]
    exact h.zip
  · rw [ha.state]
    obtain ⟨left, hleft, heq⟩ := h.carries
    refine ⟨left, hleft, fun _ => ?_⟩
    rw [heq hs, pending, pending, ha.state, SlinkMem.load, SlinkMem.load, ha.mem]
  · rw [ha.state]
    exact fun _ => h.codec hs
  · rw [ha.state]
    exact fun _ => h.readCb hs
  · rw [ha.state]
    exact fun _ => h.writeCb hs
  · exact hassert

theorem Flows.readData (h : Flows C S .out w) (hs : w.stopped = none)
    (hr : (w.state .out).readCb = true) (reads : List SlinkRead) (writes : List SlinkIo) :
    Apart .out w (w.readData C reads writes) ∧ Flows C S .out (w.readData C reads writes) := by
  have hworks := h.works hs hr
  rw [SlinkWorld.readData, if_neg (not_not_intro hworks.len)]
  exact hworks.readDataLoop rfl reads writes

theorem Flows.readNet (h : Flows C S .inn w) (hs : w.stopped = none)
    (hr : (w.state .inn).readCb = true) (reads : List SlinkRead) (writes : List SlinkIo) :
    Apart .inn w (w.readNet C reads writes) ∧ Flows C S .inn (w.readNet C reads writes) := by
  have hworks := h.works hs hr
  rw [SlinkWorld.readNet, if_neg (not_not_intro hworks.len)]
  exact hworks.readNetLoop rfl reads writes

/-- Both directions between two callbacks. -/
def Sound (C : SlinkCodec κ ζ) (settings : SlinkWay → SlinkSettings κ ζ)
    (w : SlinkWorld κ ζ) : Prop := ∀ way, Flows C (settings way) way w

variable {settings : SlinkWay → SlinkSettings κ ζ}

theorem sound_init (C : SlinkCodec κ ζ) (mem : SlinkMem)
    (settings : SlinkWay → SlinkSettings κ ζ) : Sound C settings (init mem settings) := by
  intro way
  refine ⟨rfl, rfl, ⟨[], .start ?_, fun _ => ?_⟩, fun _ => rfl, fun _ => iff_of_true rfl rfl,
    fun _ => iff_of_false Bool.false_ne_true (not_not_intro rfl), fun hs => by cases hs⟩
  · rw [SlinkCodec.image_eq]
    rfl
  · exact (pending_eq_nil rfl).symm

theorem Sound.of_way (h : Sound C settings w) (hs : w.stopped = none) (ha : Apart way w w')
    (hway : Flows C (settings way) way w') : Sound C settings w' := by
  intro way'
  by_cases heq : way' = way
  · exact heq ▸ hway
  · have hother : way' = way.other := by
      cases way <;> cases way' <;> first | rfl | exact absurd rfl heq
    rw [hother]
    exact (h way.other).apart hs ha hway.assertion

theorem Sound.step (h : Sound C settings w) (e : SlinkEvent) : Sound C settings (w.step C e) := by
  unfold SlinkWorld.step
  split
  · exact h
  · rename_i hsome
    have hs : w.stopped = none := Option.not_isSome_iff_eq_none.mp hsome
    cases e with
    | readData reads writes =>
        rw [callback]
        split
        · rename_i hr
          obtain ⟨ha, hflows⟩ := (h .out).readData hs hr reads writes
          exact h.of_way hs ha hflows
        · exact h
    | writeNet io =>
        rw [callback]
        split
        · rename_i hw
          exact h.of_way hs (apart_writePending w .out io) ((h .out).writePending hs hw io)
        · exact h
    | readNet reads writes =>
        rw [callback]
        split
        · rename_i hr
          obtain ⟨ha, hflows⟩ := (h .inn).readNet hs hr reads writes
          exact h.of_way hs ha hflows
        · exact h
    | writeData io =>
        rw [callback]
        split
        · rename_i hw
          exact h.of_way hs (apart_writePending w .inn io) ((h .inn).writePending hs hw io)
        · exact h

/-- What a direction wrote is the image of what it read, up to what is pending, and nothing was
pending at any read. -/
structure Delivers (image : List (List ℕ) → List ℕ) (w : SlinkWorld κ ζ) (way : SlinkWay) :
    Prop where
  isPrefix : PipeOp.written (w.state way).log <+: image (chunks (w.state way).log)
  whole : w.stopped = none →
    PipeOp.written (w.state way).log ++ w.pending way = image (chunks (w.state way).log)
  drained : ∀ before chunk after, (w.state way).log = before ++ .read chunk :: after →
    PipeOp.written before = image (chunks before)

theorem Flows.delivers (h : Flows C S way w) : Delivers (C.image S way) w way := by
  obtain ⟨left, hleft, heq⟩ := h.carries
  exact ⟨hleft.isPrefix, fun hs => heq hs ▸ hleft.whole, hleft.drained⟩

/-- Whatever the settings, the reads and the results of the writes. -/
theorem run_delivers (C : SlinkCodec κ ζ) (mem : SlinkMem)
    (settings : SlinkWay → SlinkSettings κ ζ) (events : List SlinkEvent) :
    let w := events.foldl (step C) (init mem settings)
    Delivers (C.image (settings .out) .out) w .out ∧
      Delivers (C.image (settings .inn) .inn) w .inn ∧ w.stopped ≠ some .assertion := by
  have hsound : Sound C settings (events.foldl (step C) (init mem settings)) :=
    Runs.keeps (fun w e h => h.step e) (sound_init C mem settings) events
  exact ⟨(hsound .out).delivers, (hsound .inn).delivers, (hsound .out).assertion⟩

end SlinkWorld

/-- A cipher that adds the last encrypted byte, and blocks that are stored. -/
def SlinkCodec.stored : SlinkCodec ℕ Unit where
  encryptor := ⟨fun key b => ([(b + key) % 256], (b + key) % 256)⟩
  decryptor := ⟨fun key b => ([(b + 256 - key) % 256], b)⟩
  compressor := Transducer.pass.onWords
  decompressor := .pass
  encryptUpdate key d := some (Transducer.run _ key d)
  decryptUpdate key d := some (Transducer.run _ key d)
  deflate s d := if d.length ≤ BUFLEN then some ⟨d.length, d, s⟩ else none
  inflate s d := if d = [] then none else some ⟨BUFLEN, d.take BUFLEN, s⟩
  encryptor_lengthwise _ _ := rfl
  decryptor_lengthwise _ _ := rfl
  encryptUpdate_run h := (Option.some.inj h).symm
  decryptUpdate_run h := (Option.some.inj h).symm
  deflate_step h := by
    split at h <;> cases h
    rw [Transducer.onWords_step, Transducer.run_pass, List.take_length]
  inflate_run h := by
    split at h <;> cases h
    rw [Transducer.run_pass]
  inflate_consumed h := by
    split at h <;> cases h
    exact (by decide : 0 < BUFLEN)
  length_deflate_le h := by
    split at h <;> cases h
    assumption
  length_inflate_le h := by
    split at h <;> cases h
    exact List.length_take_le _ _

/-- A write that is cut short, and the rest of it before the next read. -/
example :
    let w := [SlinkEvent.readData [.data [7, 8, 9]] [.ret 1], .writeNet .wouldBlock,
      .readData [.data [1]] [], .writeNet (.ret 5), .readData [.data [1]] [.ret 1]].foldl
        (SlinkWorld.step .stored) (.init (fun _ => [0, 0, 0, 0]) fun _ => ⟨true, true, 10, ()⟩)
    chunks (w.state .out).log = [[7, 8, 9], [1]] ∧
      PipeOp.written (w.state .out).log = [17, 25, 34, 35] := by decide

end Unirc
