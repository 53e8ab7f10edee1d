import Unirc.DnsReply

/-!
# The answers in a reply

The records that a datagram holds, and when `proc_answer` finds the one that was asked for. It does
when the first record, behind at most one CNAME for a PTR request, is of a type it knows and holds
what it copies; the questions have to be whole.
-/

namespace Unirc

namespace Dns

variable (names : NameReader) (p : Packet)

/-- An answer with its fixed fields. -/
structure AnswerRecord where
  type : ℕ
  rdLength : ℕ
  data : ℕ

/-- The record at a place, when its name and its fixed fields are in the datagram. -/
def recordAt (current : ℕ) : Option AnswerRecord :=
  (names.expand current).bind fun
    | (0, _) => none
    | (n + 1, _) =>
        let fixed := current + (n + 1)
        if fixed + ANSWER_FIXED_SIZE ≤ p.eob then
          some ⟨p.get16 fixed, p.get16 (fixed + TYPE_SIZE + CLASS_SIZE + TTL_SIZE),
            fixed + ANSWER_FIXED_SIZE⟩
        else none

/-- The records of the answer section, each behind the data of the one before. -/
def recordsFrom : ℕ → ℕ → List AnswerRecord
  | 0, _ => []
  | ancount + 1, current =>
      match recordAt names p current with
      | none => []
      | some r => r :: recordsFrom ancount (r.data + r.rdLength)

/-- The place behind the questions, when they are whole. -/
def answerStart : ℕ → ℕ → Option ℕ
  | 0, current => some current
  | qdcount + 1, current =>
      (names.skipname current).bind fun n => answerStart qdcount (current + n + QFIXEDSZ)

def answers (qdcount ancount : ℕ) : List AnswerRecord :=
  (answerStart names qdcount HEADER_SIZE).elim [] (recordsFrom names p ancount)

/-- The record is of the requested type, or says where the name of a request in state CNAME
leads. -/
def wanted (request : Request) (r : AnswerRecord) : Bool :=
  r.type = request.type || (request.state = .reqCname && r.type = T_CNAME)

/-- The request holds the address or the name of the record. -/
def Stored (r : AnswerRecord) (request : Request) : Prop :=
  if r.type = T_A then request.addr = p.inAddr r.data
  else if r.type = T_AAAA then request.addr = p.in6Addr r.data
  else ∃ n hostbuf, names.expand r.data = some (n, hostbuf) ∧
    request.name = hostbuf.take (HOSTLEN - 1)

/-- What is read is in the datagram, and success means that the first record of the wanted kind is
stored. -/
structure AnsweredSafely (request : Request) (qdcount ancount : ℕ) : Prop where
  reads : ∀ i ∈ (procAnswer names p request qdcount ancount).reads, i < p.eob
  answer : (procAnswer names p request qdcount ancount).ret = true →
    ∃ r, (answers names p qdcount ancount).find? (wanted request) = some r ∧
      Stored names p r (procAnswer names p request qdcount ancount).request

/-- The first records end the walk: a record with a broken name, or one of a known type whose data
is there if it is copied. One CNAME may come before for a PTR request that has had none. -/
def Decides (type : ℕ) : RequestState → ℕ → ℕ → Prop
  | _, 0, _ => False
  | state, ancount + 1, current =>
      current < p.eob ∧ ((names.expand current).elim 0 Prod.fst = 0 ∨
        ∃ r, recordAt names p current = some r ∧ r.data < p.eob ∧
          (r.type = T_A ∧ (type = T_A → r.rdLength = 4 → r.data + 4 ≤ p.eob) ∨
            r.type = T_AAAA ∧ (type = T_AAAA → r.rdLength = 16 → r.data + 16 ≤ p.eob) ∨
            r.type = T_PTR ∨
            r.type = T_CNAME ∧ (type = T_PTR →
              if state = .reqCname then names.expand r.data = none
              else Decides type .reqCname ancount (r.data + r.rdLength))))

/-- The questions are whole and the first records end the walk. -/
def WellAnswered (request : Request) (qdcount ancount : ℕ) : Prop :=
  ∃ start, answerStart names qdcount HEADER_SIZE = some start ∧
    Decides names p request.type request.state ancount start

variable {names p}

theorem skipQuestions_eq {qdcount current start : ℕ}
    (h : answerStart names qdcount current = some start) :
    skipQuestions names qdcount current = start := by
  induction qdcount generalizing current with
  | zero => exact Option.some.inj h
  | succ qdcount ih =>
      obtain ⟨n, hn, hrest⟩ := Option.bind_eq_some_iff.mp h
      rw [skipQuestions, hn]
      exact ih hrest

theorem recordAt_eq_some {current : ℕ} {r : AnswerRecord} (h : recordAt names p current = some r) :
    ∃ n hostbuf, names.expand current = some (n + 1, hostbuf) ∧
      current + (n + 1) + ANSWER_FIXED_SIZE ≤ p.eob ∧
      r = ⟨p.get16 (current + (n + 1)),
        p.get16 (current + (n + 1) + TYPE_SIZE + CLASS_SIZE + TTL_SIZE),
        current + (n + 1) + ANSWER_FIXED_SIZE⟩ := by
  obtain ⟨⟨n, hostbuf⟩, hn, hr⟩ := Option.bind_eq_some_iff.mp h
  cases n with
  | zero => cases hr
  | succ n =>
      dsimp only at hr
      split at hr
      · rename_i hle
        exact ⟨n, hostbuf, hn, hle, (Option.some.inj hr).symm⟩
      · cases hr

/-- What the loop has come to: its reads are in the datagram, and on success the first record of
the requested type is stored, which is the very first one in state CNAME. -/
structure LoopAnswered (names : NameReader) (p : Packet) (request : Request) (records : List AnswerRecord) (a : Answer) : Prop where
  reads : ∀ i ∈ a.reads, i < p.eob
  answer : a.ret = true → ∃ r, records.find? (fun r => r.type = request.type) = some r ∧
    (request.state = .reqCname → records.head? = some r) ∧ Stored names p r a.request

theorem loopAnswered_false {request : Request} {records : List AnswerRecord} {a : Answer}
    (hret : a.ret = false) (hreads : ∀ i ∈ a.reads, i < p.eob) :
    LoopAnswered names p request records a :=
  ⟨hreads, fun h => absurd h (by simp [hret])⟩

theorem loopAnswered_head {request : Request} {r : AnswerRecord} {records : List AnswerRecord}
    {a : Answer} (hreads : ∀ i ∈ a.reads, i < p.eob) (htype : r.type = request.type)
    (hstored : Stored names p r a.request) :
    LoopAnswered names p request (r :: records) a :=
  ⟨hreads, fun _ => ⟨r, by simp [htype], fun _ => rfl, hstored⟩⟩

theorem loopAnswered_cname {request request' : Request} {r : AnswerRecord}
    {records : List AnswerRecord} {a : Answer} {reads : List ℕ} (hreads : ∀ i ∈ reads, i < p.eob)
    (hstate : request.state ≠ .reqCname) (htype : r.type ≠ request.type)
    (h : LoopAnswered names p request' records a) (hrequest : request'.type = request.type) :
    LoopAnswered names p request (r :: records) (a.read reads) := by
  refine ⟨fun i hi => ?_, fun hret => ?_⟩
  · obtain hi | hi := List.mem_append.mp hi
    · exact hreads i hi
    · exact h.reads i hi
  · obtain ⟨r', hr', -, hstored⟩ := h.answer hret
    refine ⟨r', ?_, fun hs => absurd hs hstate, hstored⟩
    rw [List.find?_cons_of_neg (by simpa using htype), ← hrequest]
    exact hr'

theorem mem_fixed_lt {current n i : ℕ} (h : current + ANSWER_FIXED_SIZE + n ≤ p.eob)
    (hi : i ∈ List.range' current ANSWER_FIXED_SIZE ++
      List.range' (current + ANSWER_FIXED_SIZE) n) : i < p.eob := by
  simp only [List.mem_append, List.mem_range'_1] at hi
  omega

theorem answerLoop_decides {ancount current : ℕ} {request : Request}
    (h : Decides names p request.type request.state ancount current) :
    LoopAnswered names p request (recordsFrom names p ancount current)
      (answerLoop names p ancount current request) := by
  induction ancount generalizing current request with
  | zero => exact absurd h (by simp [Decides])
  | succ ancount ih =>
      obtain ⟨hlt, hcase⟩ := h
      rw [answerLoop, if_pos hlt]
      cases hexp : names.expand current with
      | none => exact loopAnswered_false rfl (by simp)
      | some x =>
          obtain ⟨n, hostbuf⟩ := x
          cases n with
          | zero => exact loopAnswered_false rfl (by simp)
          | succ n =>
              rw [hexp] at hcase
              obtain hzero | ⟨r, hr, hdata, hcase⟩ := hcase
              · cases hzero
              obtain ⟨n', hostbuf', hn', hle, hreq⟩ := recordAt_eq_some hr
              obtain ⟨rfl, rfl⟩ : n' = n ∧ hostbuf' = hostbuf := by
                simpa [hexp, eq_comm] using hn'
              rw [recordsFrom, hr]
              subst hreq
              dsimp only at hdata hcase ⊢
              rw [if_pos hdata]
              have hfixed : ∀ i ∈ List.range' (current + (n' + 1)) ANSWER_FIXED_SIZE, i < p.eob :=
                fun i hi => @mem_fixed_lt p (current + (n' + 1)) 0 i (by omega) (by simpa using hi)
              obtain ⟨htype, hlen⟩ | ⟨htype, hlen⟩ | htype | ⟨htype, hnext⟩ := hcase
              · rw [if_pos htype]
                split
                · exact loopAnswered_false rfl hfixed
                · rename_i hgood
                  push Not at hgood
                  refine loopAnswered_head (fun i hi => mem_fixed_lt (hlen hgood.1 hgood.2) hi)
                    (htype.trans hgood.1.symm) ?_
                  rw [Stored, if_pos htype]
              · have hne : p.get16 (current + (n' + 1)) ≠ T_A := by rw [htype]; decide
                rw [if_neg hne, if_pos htype]
                split
                · exact loopAnswered_false rfl hfixed
                · rename_i hgood
                  push Not at hgood
                  refine loopAnswered_head (fun i hi => mem_fixed_lt (hlen hgood.1 hgood.2) hi)
                    (htype.trans hgood.1.symm) ?_
                  rw [Stored, if_neg hne, if_pos htype]
              · have hne : p.get16 (current + (n' + 1)) ≠ T_A := by rw [htype]; decide
                have hne' : p.get16 (current + (n' + 1)) ≠ T_AAAA := by rw [htype]; decide
                rw [if_neg hne, if_neg hne', if_pos htype]
                split
                · exact loopAnswered_false rfl hfixed
                · rename_i hptr
                  split
                  · exact loopAnswered_false rfl hfixed
                  · exact loopAnswered_false rfl hfixed
                  · rename_i m name hname
                    refine loopAnswered_head hfixed (htype.trans (not_ne_iff.mp hptr).symm) ?_
                    rw [Stored, if_neg hne, if_neg hne']
                    exact ⟨m + 1, name, hname, rfl⟩
              · rw [if_neg (by rw [htype]; decide), if_neg (by rw [htype]; decide),
                  if_neg (by rw [htype]; decide), if_pos htype]
                split
                · exact loopAnswered_false rfl hfixed
                · rename_i hptr
                  have hrest := hnext (not_ne_iff.mp hptr)
                  split
                  · rename_i hstate
                    rw [if_pos hstate] at hrest
                    exact loopAnswered_false (by rw [hrest]; rfl) hfixed
                  · rename_i hstate
                    rw [if_neg hstate] at hrest
                    exact loopAnswered_cname hfixed hstate
                      (fun h => absurd ((htype.symm.trans h).trans (not_ne_iff.mp hptr)) (by decide))
                      (@ih _ { request with
                        ttl := p.get32 (current + (n' + 1) + TYPE_SIZE + CLASS_SIZE)
                        state := .reqCname } hrest) rfl

/-- The names of a datagram in which all names are empty. -/
def rootNames (p : Packet) : NameReader where
  skipname i := if i < p.eob ∧ p.byte i = 0 then some 1 else none
  expand i := if i < p.eob ∧ p.byte i = 0 then some (1, []) else none

/-- A reply without questions and with one A record, of which some bytes of the address are
there. -/
def addressReply (address : List UInt8) : Packet where
  datagram := [0, 0, 0x80, 0, 0, 0, 0, 1, 0, 0, 0, 0] ++ [0, 0, 1, 0, 1, 0, 0, 0, 60, 0, 4] ++ address
  behind := fun _ => 0

def addressRequest : Request :=
  ⟨0, 1, .reqA, 0, T_A, 3, 1, true, 0, 4, .inet 0, "a".toList, 0⟩

end Dns

end Unirc
