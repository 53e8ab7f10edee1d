import Unirc.ServlinkHandover

/-!
# What start_io writes and servlink reads

The buffer is as long as was computed, and it is the calls one after the other. The queues have no
empty blocks, since a put copies at least one byte to a block that it allocates.
-/

namespace Unirc

namespace DbufQueue

/-- Queues that puts of at least one byte and deletes make. -/
inductive Reached : DbufQueue → Prop
  | empty : Reached .empty
  | put {q : DbufQueue} {data : Str} (h : Reached q) (hne : data ≠ []) : Reached (q.put data)
  | delete {q q' : DbufQueue} {count : ℕ} (h : Reached q) (hdelete : q.delete count = some q') :
      Reached q'

theorem Reached.filled {q : DbufQueue} (h : q.Reached) : q.Filled := by
  induction h with
  | empty => exact fun b hb => absurd hb List.not_mem_nil
  | put _ hne ih => exact ih.put hne
  | delete _ hdelete ih =>
      rw [DbufQueue.delete] at hdelete
      split at hdelete
      · exact Filled.deleteLoop ih hdelete
      · cases hdelete

theorem Reached.counted {q : DbufQueue} (h : q.Reached) : q.Counted := by
  induction h with
  | empty => exact counted_empty
  | put _ _ ih => exact ih.put _
  | @delete q q' count _ hdelete ih =>
      have hcount : count ≤ q.unread.length := by
        rw [DbufQueue.delete] at hdelete
        split at hdelete
        · rename_i hle
          exact ih ▸ hle
        · cases hdelete
      obtain ⟨_, hdelete', hcounted, -⟩ := ih.delete count hcount
      rw [hdelete] at hdelete'
      cases hdelete'
      exact hcounted

end DbufQueue

namespace SlinkHandover

variable (x : SlinkHandover)

open SlinkCommand in
def zipCalls (level : ℕ) : List SlinkCall :=
  [(setZipOutLevel, [level % 256]), (startZipIn, []), (startZipOut, [])]

open SlinkCommand in
def encCalls (inCipher outCipher : SlinkCipher) : List SlinkCall :=
  [(setCryptInCipher, [inCipher.cipherid % 256]), (setCryptInKey, inCipher.key),
    (setCryptOutCipher, [outCipher.cipherid % 256]), (setCryptOutKey, outCipher.key),
    (startCryptIn, []), (startCryptOut, [])]

def queueCalls (command : SlinkCommand) (q : DbufQueue) : List SlinkCall :=
  q.blocks.map fun b => (command, b.bytes)

/-- The calls of handlers that are handed over. -/
def calls : List SlinkCall :=
  x.zip.elim [] zipCalls ++ x.enc.elim [] (fun ciphers => encCalls ciphers.1 ciphers.2) ++
    queueCalls .injectRecvq x.recvq ++ queueCalls .injectSendq x.sendq ++ [(.init, [])]

theorem length_bytes (b : DbufBlock) : b.bytes.length = b.size := List.length_map _

theorem encode_zip (level : ℕ) : (zipCalls level).flatMap SlinkCall.encode = zipBytes level := by
  simp [zipCalls, zipBytes, SlinkCall.encode, SlinkCommand.hasData]

theorem encode_key {c : SlinkCommand} (hdata : c.hasData = true) (cipher : SlinkCipher) :
    SlinkCall.encode (c, cipher.key) = c.commandid :: 0 :: cipher.keylen % 256 :: cipher.key := by
  have hhi : cipher.keylen >>> 8 = 0 := by
    rw [Nat.shiftRight_eq_div_pow]
    exact Nat.div_eq_of_lt cipher.keylen_lt
  rw [SlinkCall.encode, if_pos hdata, cipher.length_key, hhi]

theorem encode_enc (inCipher outCipher : SlinkCipher) :
    (encCalls inCipher outCipher).flatMap SlinkCall.encode = encBytes inCipher outCipher := by
  simp only [encCalls, List.flatMap_cons, encode_key (c := .setCryptInKey) rfl,
    encode_key (c := .setCryptOutKey) rfl]
  simp [encBytes, SlinkCall.encode, SlinkCommand.hasData]

theorem encode_queue {c : SlinkCommand} (hdata : c.hasData = true) (q : DbufQueue) :
    (queueCalls c q).flatMap SlinkCall.encode = q.blocks.flatMap (blockBytes c) := by
  have hblock : ∀ b : DbufBlock, SlinkCall.encode (c, b.bytes) = blockBytes c b := by
    intro b
    rw [SlinkCall.encode, if_pos hdata, length_bytes]
    rfl
  rw [queueCalls, List.flatMap_map]
  exact congrArg (fun f => q.blocks.flatMap f) (funext hblock)

/-- What is written are the calls. -/
theorem startIo_eq : x.startIo = x.calls.flatMap SlinkCall.encode := by
  have hzip : (x.zip.elim [] zipCalls).flatMap SlinkCall.encode = x.zip.elim [] zipBytes := by
    cases x.zip with
    | none => rfl
    | some level => exact encode_zip level
  have henc : (x.enc.elim [] fun ciphers => encCalls ciphers.1 ciphers.2).flatMap
      SlinkCall.encode = x.enc.elim [] fun ciphers => encBytes ciphers.1 ciphers.2 := by
    cases x.enc with
    | none => rfl
    | some ciphers => exact encode_enc ciphers.1 ciphers.2
  rw [startIo, calls, List.flatMap_append, List.flatMap_append, List.flatMap_append,
    List.flatMap_append, hzip, henc, encode_queue rfl, encode_queue rfl]
  rfl

theorem length_blockBytes (c : SlinkCommand) (blocks : List DbufBlock) :
    (blocks.flatMap (blockBytes c)).length =
      (blocks.flatMap (·.data)).length + blocks.length * 3 := by
  induction blocks with
  | nil => rfl
  | cons b blocks ih =>
      have hbytes : b.bytes.length = b.data.length := length_bytes b
      simp only [List.flatMap_cons, List.length_append, ih, blockBytes, List.length_cons, hbytes]
      omega

/-- As many bytes are written as were allocated. -/
theorem length_startIo (hrecvq : x.recvq.Counted) (hsendq : x.sendq.Counted) :
    x.startIo.length = x.alloclen := by
  have hzip : (x.zip.elim [] zipBytes).length = if x.zip.isSome then 6 else 0 := by
    cases x.zip <;> rfl
  have henc : (x.enc.elim [] fun ciphers => encBytes ciphers.1 ciphers.2).length =
      x.enc.elim 0 fun ciphers => 16 + ciphers.1.keylen + ciphers.2.keylen := by
    cases x.enc with
    | none => rfl
    | some ciphers =>
        change (encBytes ciphers.1 ciphers.2).length = 16 + ciphers.1.keylen + ciphers.2.keylen
        simp only [encBytes, List.length_append, List.length_cons, List.length_nil,
          SlinkCipher.length_key]
        omega
  have hr : x.recvq.totalSize = (x.recvq.blocks.flatMap (·.data)).length := hrecvq
  have hs : x.sendq.totalSize = (x.sendq.blocks.flatMap (·.data)).length := hsendq
  rw [startIo, alloclen, List.length_append, List.length_append, List.length_append,
    List.length_append, hzip, henc, length_blockBytes, length_blockBytes, hr, hs]
  simp only [List.length_cons, List.length_nil]
  omega

theorem forall_mem_calls {p : SlinkCall → Prop} (hzip : ∀ level, ∀ call ∈ zipCalls level, p call)
    (henc : ∀ inCipher outCipher, ∀ call ∈ encCalls inCipher outCipher, p call)
    (hrecvq : ∀ b ∈ x.recvq.blocks, p (.injectRecvq, b.bytes))
    (hsendq : ∀ b ∈ x.sendq.blocks, p (.injectSendq, b.bytes)) (hinit : p (.init, [])) :
    ∀ call ∈ x.calls, p call := by
  intro call hcall
  simp only [calls, List.mem_append, queueCalls, List.mem_map, List.mem_singleton] at hcall
  rcases hcall with (((h | h) | ⟨b, hb, rfl⟩) | ⟨b, hb, rfl⟩) | rfl
  · cases hx : x.zip with
    | none =>
        rw [hx] at h
        cases h
    | some level =>
        rw [hx] at h
        exact hzip level call h
  · cases hx : x.enc with
    | none =>
        rw [hx] at h
        cases h
    | some ciphers =>
        rw [hx] at h
        exact henc ciphers.1 ciphers.2 call h
  · exact hrecvq b hb
  · exact hsendq b hb
  · exact hinit

theorem fits_of_hasData {c : SlinkCommand} {data : List ℕ} (hdata : c.hasData = true)
    (hlen : data.length < 2 ^ 16) : SlinkCall.Fits (c, data) :=
  ⟨fun h => absurd (hdata.symm.trans h) (by decide), hlen⟩

theorem fits_calls : ∀ call ∈ x.calls, call.Fits := by
  have hblock : ∀ b : DbufBlock, b.bytes.length < 2 ^ 16 := by
    intro b
    rw [length_bytes]
    exact b.size_le.trans_lt (by decide)
  have hkey : ∀ cipher : SlinkCipher, cipher.key.length < 2 ^ 16 := by
    intro cipher
    rw [cipher.length_key]
    exact cipher.keylen_lt.trans (by decide)
  refine x.forall_mem_calls ?_ ?_ (fun b _ => fits_of_hasData rfl (hblock b))
    (fun b _ => fits_of_hasData rfl (hblock b)) ⟨fun _ => rfl, by decide⟩
  · intro level call hcall
    simp only [zipCalls, List.mem_cons, List.not_mem_nil, or_false] at hcall
    rcases hcall with rfl | rfl | rfl
    · exact fits_of_hasData rfl (by simp)
    · exact ⟨fun _ => rfl, by decide⟩
    · exact ⟨fun _ => rfl, by decide⟩
  · intro inCipher outCipher call hcall
    simp only [encCalls, List.mem_cons, List.not_mem_nil, or_false] at hcall
    rcases hcall with rfl | rfl | rfl | rfl | rfl | rfl
    · exact fits_of_hasData rfl (by simp)
    · exact fits_of_hasData rfl (hkey _)
    · exact fits_of_hasData rfl (by simp)
    · exact fits_of_hasData rfl (hkey _)
    · exact ⟨fun _ => rfl, by decide⟩
    · exact ⟨fun _ => rfl, by decide⟩

/-- A command that has data has some. -/
theorem data_ne_nil (hrecvq : x.recvq.Filled) (hsendq : x.sendq.Filled) :
    ∀ call ∈ x.calls, call.1.hasData = true → call.2 ≠ [] := by
  have hkey : ∀ cipher : SlinkCipher, cipher.key ≠ [] := by
    intro cipher
    rw [← List.length_pos_iff, cipher.length_key]
    exact cipher.keylen_pos
  have hbytes : ∀ b : DbufBlock, b.data ≠ [] → b.bytes ≠ [] := by
    intro b hb
    rw [DbufBlock.bytes, Ne, List.map_eq_nil_iff]
    exact hb
  refine x.forall_mem_calls ?_ ?_ (fun b hb _ => hbytes b (hrecvq b hb))
    (fun b hb _ => hbytes b (hsendq b hb)) (fun h => absurd h (by decide))
  · intro level call hcall hdata
    simp only [zipCalls, List.mem_cons, List.not_mem_nil, or_false] at hcall
    rcases hcall with rfl | rfl | rfl
    · exact List.cons_ne_nil _ _
    · cases hdata
    · cases hdata
  · intro inCipher outCipher call hcall hdata
    simp only [encCalls, List.mem_cons, List.not_mem_nil, or_false] at hcall
    rcases hcall with rfl | rfl | rfl | rfl | rfl | rfl
    · exact List.cons_ne_nil _ _
    · exact hkey inCipher
    · exact List.cons_ne_nil _ _
    · exact hkey outCipher
    · cases hdata
    · cases hdata

theorem injected_queueCalls (c : SlinkCommand) (q : DbufQueue) :
    ((queueCalls c q).filter (·.1 = c)).flatMap (·.2) = q.unread.map Char.toNat := by
  have hall : (queueCalls c q).filter (·.1 = c) = queueCalls c q := by
    rw [List.filter_eq_self]
    intro call hcall
    obtain ⟨b, -, rfl⟩ := List.mem_map.mp hcall
    exact decide_eq_true rfl
  rw [hall, queueCalls, List.flatMap_map, DbufQueue.unread, List.map_flatMap]
  rfl

theorem filter_queueCalls {c d : SlinkCommand} (hne : c ≠ d) (q : DbufQueue) :
    (queueCalls c q).filter (·.1 = d) = [] := by
  rw [List.filter_eq_nil_iff]
  intro call hcall
  obtain ⟨b, -, rfl⟩ := List.mem_map.mp hcall
  simpa using hne

theorem filter_settings {d : SlinkCommand} (hd : d = .injectRecvq ∨ d = .injectSendq) :
    (x.zip.elim [] zipCalls).filter (·.1 = d) = [] ∧
      (x.enc.elim [] fun ciphers => encCalls ciphers.1 ciphers.2).filter (·.1 = d) = [] := by
  constructor
  · cases x.zip with
    | none => rfl
    | some level => rcases hd with rfl | rfl <;> rfl
  · cases x.enc with
    | none => rfl
    | some ciphers => rcases hd with rfl | rfl <;> rfl

/-- The data of the calls for the receive queue is the queue. -/
theorem injected_recvq :
    (x.calls.filter (·.1 = .injectRecvq)).flatMap (·.2) = x.recvq.unread.map Char.toNat := by
  obtain ⟨hzip, henc⟩ := x.filter_settings (.inl rfl)
  rw [calls, List.filter_append, List.filter_append, List.filter_append, List.filter_append, hzip,
    henc, filter_queueCalls (show SlinkCommand.injectSendq ≠ .injectRecvq by decide)]
  simpa using injected_queueCalls .injectRecvq x.recvq

theorem injected_sendq :
    (x.calls.filter (·.1 = .injectSendq)).flatMap (·.2) = x.sendq.unread.map Char.toNat := by
  obtain ⟨hzip, henc⟩ := x.filter_settings (.inr rfl)
  rw [calls, List.filter_append, List.filter_append, List.filter_append, List.filter_append, hzip,
    henc, filter_queueCalls (show SlinkCommand.injectRecvq ≠ .injectSendq by decide)]
  simpa using injected_queueCalls .injectSendq x.sendq

/-- Servlink after `n` calls of `read_ctrl`. -/
def received (chunks : List ℕ) (n : ℕ) : Servlink :=
  Servlink.readCtrl^[n] (.start x.startIo chunks)

/-- The buffer is filled, and servlink makes of it the calls that were meant, all of them when
enough reads find something. -/
structure RoundTrips (chunks : List ℕ) : Prop where
  allocated : x.startIo.length = x.alloclen
  handed : ∀ n, (x.received chunks n).Handed x.calls
  complete : x.startIo.length ≤ chunks.countP (0 < ·) →
    (x.received chunks chunks.length).calls = x.calls
  recvq : (x.calls.filter (·.1 = .injectRecvq)).flatMap (·.2) = x.recvq.unread.map Char.toNat
  sendq : (x.calls.filter (·.1 = .injectSendq)).flatMap (·.2) = x.sendq.unread.map Char.toNat

theorem onTrack_start (chunks : List ℕ) :
    (Servlink.start x.startIo chunks).OnTrack x.calls :=
  ⟨rfl, x.calls, rfl, .command rfl x.startIo_eq⟩

theorem handover_roundTrips_iff {chunks : List ℕ} (hrecvq : x.recvq.Reached)
    (hsendq : x.sendq.Reached) :
    x.RoundTrips chunks ↔ ∀ n, ¬ (x.received chunks n).SplitsLength := by
  have hrun := (x.onTrack_start chunks).handed_run_iff x.fits_calls
    (x.data_ne_nil hrecvq.filled hsendq.filled)
  refine ⟨fun h => hrun.mp h.handed, fun hcut => ?_⟩
  exact {
    allocated := x.length_startIo hrecvq.counted hsendq.counted
    handed := hrun.mpr hcut
    complete := fun hfed => (x.onTrack_start chunks).complete x.fits_calls hcut hfed
    recvq := x.injected_recvq
    sendq := x.injected_sendq }

/-- A link whose receive queue has two bytes. -/
def twoBytes : SlinkHandover where
  zip := none
  enc := none
  recvq := ⟨[⟨"ab".toList, by decide⟩], 2⟩
  sendq := .empty

theorem reached_twoBytes : twoBytes.recvq.Reached := by
  have hput : DbufQueue.empty.put "ab".toList = twoBytes.recvq := by
    rw [DbufQueue.put, if_pos (by decide)]
    rfl
  rw [← hput]
  exact .put .empty (by decide)

theorem handover_roundTrips_iff_twoBytes : twoBytes.RoundTrips [1, 2, 2, 1] ↔
    ∀ n, ¬ (twoBytes.received [1, 2, 2, 1] n).SplitsLength :=
  twoBytes.handover_roundTrips_iff reached_twoBytes .empty

/-- One byte at a time, the handler is called after the upper byte of the length. -/
theorem not_handover_roundTrips : ¬ ∀ (x : SlinkHandover) (chunks : List ℕ), x.recvq.Reached →
    x.sendq.Reached → x.RoundTrips chunks := by
  intro h
  have hcalls := ((h twoBytes [1, 1, 1, 1, 1, 1] reached_twoBytes .empty).handed 1).calls
  exact absurd hcalls (by decide)

end SlinkHandover

end Unirc
