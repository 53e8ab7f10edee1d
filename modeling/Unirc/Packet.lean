import Unirc.Dbuf

/-!
# Received lines

`extract_one_line` of `packet.c` walks the blocks of the receive queue in three phases
and rescans a partial line at its next call. The lines that it delivers are the ones of
the byte stream, however that was cut into packets.
-/

namespace Unirc

/-- `IsEol`. -/
def isEol (c : Char) : Bool := c == '\r' || c == '\n'

/-- The empty characters between lines. -/
def isBlank (c : Char) : Bool := isEol c || c == ' '

inductive Phase where
  | before
  | line
  | after
  deriving DecidableEq

/-- The local variables of `extract_one_line`; `buffer` is what was copied. -/
structure Scan where
  lineBytes : ℕ
  emptyBytes : ℕ
  phase : Phase
  buffer : Str

namespace Scan

def init : Scan := ⟨0, 0, .before, []⟩

/-- The body of the inner loop; an error is the return from within it. -/
def char (s : Scan) (c : Char) : Except Scan Scan :=
  if isEol c ∨ (c = ' ' ∧ s.phase ≠ .line) then
    .ok { s with
      emptyBytes := s.emptyBytes + 1
      phase := if s.phase = .line then .after else s.phase }
  else
    match s.phase with
    | .after => .error s
    | _ =>
      .ok { s with
        phase := .line
        lineBytes := s.lineBytes + 1
        buffer := if s.lineBytes < IRCD_BUFSIZE - 2 then s.buffer ++ [c] else s.buffer }

def block (s : Scan) (b : DbufBlock) : Except Scan Scan := b.data.foldlM char s

def blocks (s : Scan) (bs : List DbufBlock) : Except Scan Scan := bs.foldlM block s

/-- The number of bytes that the call returns. -/
def dolen (s : Scan) : ℕ := min s.lineBytes (IRCD_BUFSIZE - 2)

end Scan

structure Extracted where
  dolen : ℕ
  buffer : Str
  queue : DbufQueue

def extractOneLine (q : DbufQueue) : Option Extracted :=
  match Scan.init.blocks q.blocks with
  | .error s => (q.delete (s.lineBytes + s.emptyBytes)).map fun q => ⟨s.dolen, s.buffer, q⟩
  | .ok s =>
      -- a partial line stays in the queue
      let s := if s.phase ≠ .after then { s with lineBytes := 0 } else s
      (q.delete (s.lineBytes + s.emptyBytes)).map fun q => ⟨s.dolen, s.buffer, q⟩

section Reference

/-- The lines of a byte stream: what stands before each end of line, without leading
spaces, if that is not empty, and cut to the size of a message. -/
def refLines (bytes : Str) : List Str :=
  (((bytes.splitOnP isEol).dropLast.map fun l => l.dropWhile (· == ' ')).filter (· ≠ [])).map
    fun l => l.take (IRCD_BUFSIZE - 2)

/-- The beginning of the next line. -/
def refTail (bytes : Str) : Str :=
  ((bytes.splitOnP isEol).getLastD []).dropWhile (· == ' ')

example : refLines " a b \r\n\r\n  \ncd".toList = ["a b ".toList] := by decide

theorem refLines_append_eol {l : Str} (hl : ∀ c ∈ l, isEol c = false) {e : Char}
    (he : isEol e = true) (bytes : Str) : refLines (l ++ e :: bytes) =
      (if l.dropWhile (· == ' ') = [] then []
        else [(l.dropWhile (· == ' ')).take (IRCD_BUFSIZE - 2)]) ++ refLines bytes := by
  have hne := List.splitOnP_ne_nil isEol bytes
  rw [refLines, List.splitOnP_append_cons_of_forall_mem hl e he,
    List.dropLast_cons_of_ne_nil hne, List.map_cons, List.filter_cons]
  split
  · rename_i hkeep
    rw [if_neg (by simpa using hkeep)]
    rfl
  · rename_i hdrop
    rw [if_pos (by simpa using hdrop)]
    rfl

theorem refTail_append_eol {l : Str} (hl : ∀ c ∈ l, isEol c = false) {e : Char}
    (he : isEol e = true) (bytes : Str) : refTail (l ++ e :: bytes) = refTail bytes := by
  obtain ⟨p, ps, hps⟩ := List.exists_cons_of_ne_nil (List.splitOnP_ne_nil isEol bytes)
  rw [refTail, List.splitOnP_append_cons_of_forall_mem hl e he, refTail, hps]
  rfl

theorem refLines_of_noEol {l : Str} (hl : ∀ c ∈ l, isEol c = false) : refLines l = [] := by
  rw [refLines, List.splitOnP_eq_singleton hl]
  rfl

theorem refTail_of_noEol {l : Str} (hl : ∀ c ∈ l, isEol c = false) :
    refTail l = l.dropWhile (· == ' ') := by
  rw [refTail, List.splitOnP_eq_singleton hl]
  rfl

/-- The first piece of a stream: all of it, or what stands before the first end of line. -/
theorem noEol_or_eol (bytes : Str) : (∀ c ∈ bytes, isEol c = false) ∨
    ∃ l e rest, bytes = l ++ e :: rest ∧ (∀ c ∈ l, isEol c = false) ∧ isEol e = true := by
  induction bytes with
  | nil => exact Or.inl (List.forall_mem_nil _)
  | cons c bytes ih =>
      cases hc : isEol c with
      | true => exact Or.inr ⟨[], c, bytes, rfl, List.forall_mem_nil _, hc⟩
      | false =>
        rcases ih with hall | ⟨l, e, rest, rfl, hl, he⟩
        · exact Or.inl (List.forall_mem_cons.mpr ⟨hc, hall⟩)
        · exact Or.inr ⟨c :: l, e, rest, rfl, List.forall_mem_cons.mpr ⟨hc, hl⟩, he⟩

/-- Bytes that make up complete lines and leave nothing of another. -/
def Completes (bytes : Str) (lines : List Str) : Prop :=
  ∀ more, refLines (bytes ++ more) = lines ++ refLines more ∧ refTail (bytes ++ more) = refTail more

namespace Completes

theorem nil : Completes [] [] := fun _ => ⟨rfl, rfl⟩

theorem append {a b : Str} {l m : List Str} (ha : Completes a l) (hb : Completes b m) :
    Completes (a ++ b) (l ++ m) := by
  intro more
  rw [List.append_assoc, List.append_assoc, (ha _).1, (ha _).2, (hb _).1, (hb _).2]
  exact ⟨rfl, rfl⟩

theorem eol {e : Char} (he : isEol e = true) : Completes [e] [] := by
  intro more
  have hnil : ∀ c ∈ ([] : Str), isEol c = false := List.forall_mem_nil _
  exact ⟨refLines_append_eol hnil he more, refTail_append_eol hnil he more⟩

theorem space : Completes [' '] [] := by
  intro more
  have hdrop : ∀ l : Str, (' ' :: l).dropWhile (· == ' ') = l.dropWhile (· == ' ') := fun _ => rfl
  have hcons : ∀ {l : Str}, (∀ c ∈ l, isEol c = false) → ∀ c ∈ ' ' :: l, isEol c = false :=
    fun hl => List.forall_mem_cons.mpr ⟨rfl, hl⟩
  rw [List.singleton_append, List.nil_append]
  rcases noEol_or_eol more with hmore | ⟨l, e, rest, rfl, hl, he⟩
  · rw [refLines_of_noEol (hcons hmore), refTail_of_noEol (hcons hmore), refLines_of_noEol hmore,
      refTail_of_noEol hmore, hdrop]
    exact ⟨rfl, rfl⟩
  · rw [← List.cons_append, refLines_append_eol (hcons hl) he, refTail_append_eol (hcons hl) he,
      refLines_append_eol hl he, refTail_append_eol hl he, hdrop]
    exact ⟨rfl, rfl⟩

theorem blanks {l : Str} (hl : ∀ c ∈ l, isBlank c = true) : Completes l [] := by
  induction l with
  | nil => exact nil
  | cons c l ih =>
      have hrest := ih fun x hx => hl x (List.mem_cons_of_mem c hx)
      have hc := hl c List.mem_cons_self
      rw [isBlank, Bool.or_eq_true, beq_iff_eq] at hc
      rcases hc with hc | rfl
      · exact (eol hc).append hrest
      · exact space.append hrest

/-- A line that does not begin with a space, and the character that ends it. -/
theorem line {c : Char} {w : Str} (hc : c ≠ ' ') (hw : ∀ x ∈ c :: w, isEol x = false) {e : Char}
    (he : isEol e = true) : Completes (c :: w ++ [e]) [(c :: w).take (IRCD_BUFSIZE - 2)] := by
  intro more
  have hdrop : (c :: w).dropWhile (· == ' ') = c :: w :=
    List.dropWhile_cons_of_neg (by simpa using hc)
  rw [List.append_assoc, List.singleton_append, refLines_append_eol hw he,
    refTail_append_eol hw he, hdrop, if_neg (List.cons_ne_nil c w)]
  exact ⟨rfl, rfl⟩

end Completes

end Reference

/-- What the variables say of the bytes that were read. -/
inductive Scanned : Scan → Str → Prop
  | before {p : Str} (hp : ∀ c ∈ p, isBlank c = true) : Scanned ⟨0, p.length, .before, []⟩ p
  | line {p w : Str} {c : Char} (hp : ∀ x ∈ p, isBlank x = true) (hc : c ≠ ' ')
      (hw : ∀ x ∈ c :: w, isEol x = false) :
      Scanned ⟨(c :: w).length, p.length, .line, (c :: w).take (IRCD_BUFSIZE - 2)⟩ (p ++ c :: w)
  | after {p w t : Str} {c e : Char} (hp : ∀ x ∈ p, isBlank x = true) (hc : c ≠ ' ')
      (hw : ∀ x ∈ c :: w, isEol x = false) (he : isEol e = true)
      (ht : ∀ x ∈ t, isBlank x = true) :
      Scanned ⟨(c :: w).length, p.length + (e :: t).length, .after,
        (c :: w).take (IRCD_BUFSIZE - 2)⟩ (p ++ c :: w ++ e :: t)

namespace Scanned

theorem isBlank_iff (c : Char) : isBlank c = true ↔ isEol c = true ∨ c = ' ' := by
  rw [isBlank, Bool.or_eq_true, beq_iff_eq]

theorem forall_mem_snoc {P : Char → Prop} {l : Str} {c : Char} (hl : ∀ x ∈ l, P x) (hc : P c) :
    ∀ x ∈ l ++ [c], P x :=
  List.forall_mem_append.mpr ⟨hl, List.forall_mem_singleton.mpr hc⟩

theorem length_snoc (l : Str) (c : Char) : (l ++ [c]).length = l.length + 1 := by
  rw [List.length_append, List.length_singleton]

/-- A copy into a buffer of bounded size. -/
theorem take_snoc (n : ℕ) (l : Str) (c : Char) :
    (if l.length < n then l.take n ++ [c] else l.take n) = (l ++ [c]).take n := by
  split
  · rename_i hlt
    rw [List.take_of_length_le hlt.le, List.take_of_length_le (by rw [length_snoc]; omega)]
  · rename_i hge
    rw [List.take_append_of_le_length (not_lt.mp hge)]

/-- One more byte. -/
theorem char {s : Scan} {p : Str} (h : Scanned s p) (c : Char) :
    (∃ s', s.char c = .ok s' ∧ Scanned s' (p ++ [c])) ∨
      (s.char c = .error s ∧ s.phase = .after) := by
  cases h with
  | before hp =>
    left
    by_cases hc : isBlank c = true
    · refine ⟨_, if_pos ?_, ?_⟩
      · rcases (isBlank_iff c).mp hc with he | hs
        · exact Or.inl he
        · exact Or.inr ⟨hs, Phase.noConfusion⟩
      · have := before (forall_mem_snoc hp hc)
        rwa [List.length_append] at this
    · rw [isBlank_iff, not_or] at hc
      refine ⟨_, if_neg ?_, ?_⟩
      · rintro (he | hs)
        · exact hc.1 he
        · exact hc.2 hs.1
      · exact line hp hc.2 (List.forall_mem_singleton.mpr (by simpa using hc.1))
  | @line p w d hp hd hw =>
    left
    cases he : isEol c with
    | true =>
      refine ⟨_, if_pos (Or.inl he), ?_⟩
      exact after hp hd hw he (List.forall_mem_nil _)
    | false =>
      refine ⟨_, if_neg ?_, ?_⟩
      · rintro (hc | hs)
        · rw [he] at hc
          cases hc
        · exact hs.2 rfl
      · have hnext : Scanned ⟨(d :: w ++ [c]).length, p.length, .line,
            (d :: w ++ [c]).take (IRCD_BUFSIZE - 2)⟩ (p ++ (d :: w ++ [c])) :=
          line hp hd (forall_mem_snoc (l := d :: w) hw he)
        rw [length_snoc, ← take_snoc, ← List.append_assoc] at hnext
        exact hnext
  | @after p w t d e hp hd hw he ht =>
    by_cases hc : isBlank c = true
    · left
      refine ⟨_, if_pos ?_, ?_⟩
      · rcases (isBlank_iff c).mp hc with hc | hs
        · exact Or.inl hc
        · exact Or.inr ⟨hs, Phase.noConfusion⟩
      · have hnext : Scanned ⟨(d :: w).length, p.length + (e :: t ++ [c]).length, .after,
            (d :: w).take (IRCD_BUFSIZE - 2)⟩ (p ++ d :: w ++ (e :: t ++ [c])) :=
          after hp hd hw he (forall_mem_snoc ht hc)
        rw [length_snoc, ← List.append_assoc] at hnext
        exact hnext
    · right
      rw [isBlank_iff, not_or] at hc
      refine ⟨if_neg ?_, rfl⟩
      rintro (he | hs)
      · exact hc.1 he
      · exact hc.2 hs.1

theorem chars {s : Scan} {p : Str} (h : Scanned s p) (u : Str) :
    (∃ s', u.foldlM Scan.char s = .ok s' ∧ Scanned s' (p ++ u)) ∨
      ∃ s' v w, u = v ++ w ∧ u.foldlM Scan.char s = .error s' ∧ Scanned s' (p ++ v) ∧
        s'.phase = .after := by
  induction u generalizing s p with
  | nil =>
      rw [List.append_nil]
      exact Or.inl ⟨s, rfl, h⟩
  | cons c u ih =>
      rcases h.char c with ⟨s', hs', h'⟩ | ⟨hs, hphase⟩
      · have hcons : (c :: u).foldlM Scan.char s = u.foldlM Scan.char s' := by
          rw [List.foldlM_cons, hs']
          rfl
        have happ : ∀ l, p ++ [c] ++ l = p ++ c :: l := fun l => List.append_assoc p [c] l
        rw [hcons]
        rcases ih h' with ⟨t, ht, hend⟩ | ⟨t, v, w, rfl, ht, hend, hphase⟩
        · exact Or.inl ⟨t, ht, happ u ▸ hend⟩
        · exact Or.inr ⟨t, c :: v, w, rfl, ht, happ v ▸ hend, hphase⟩
      · refine Or.inr ⟨s, [], c :: u, rfl, ?_, by rwa [List.append_nil], hphase⟩
        rw [List.foldlM_cons, hs]
        rfl

theorem blocks_eq (s : Scan) (bs : List DbufBlock) :
    s.blocks bs = (bs.flatMap (·.data)).foldlM Scan.char s := by
  induction bs generalizing s with
  | nil => rfl
  | cons b bs ih =>
      rw [List.flatMap_cons, List.foldlM_append, Scan.blocks, List.foldlM_cons]
      congr 1
      funext s'
      exact ih s'

/-- After the third phase began, the bytes are one line with what surrounds it. -/
theorem complete {s : Scan} {p : Str} (h : Scanned s p) (hphase : s.phase = .after) :
    Completes p [s.buffer] ∧ s.lineBytes + s.emptyBytes = p.length ∧
      s.dolen = s.buffer.length ∧ s.dolen ≠ 0 := by
  cases h with
  | before => cases hphase
  | line => cases hphase
  | @after p w t c e hp hc hw he ht =>
    refine ⟨?_, ?_, ?_, ?_⟩
    · have hline := ((Completes.blanks hp).append (Completes.line hc hw he)).append
        (Completes.blanks ht)
      rw [List.nil_append, List.append_nil, ← List.append_assoc, List.append_assoc _ [e] t] at hline
      exact hline
    · simp only [List.length_append, List.length_cons]
      omega
    · rw [Scan.dolen, List.length_take, min_comm]
    · simp [Scan.dolen, IRCD_BUFSIZE]

/-- Before that they are empty characters and the beginning of a line. -/
theorem partialLine {s : Scan} {p : Str} (h : Scanned s p) (hphase : s.phase ≠ .after) :
    ∃ l w, p = l ++ w ∧ s.emptyBytes = l.length ∧ (∀ c ∈ l, isBlank c = true) ∧
      (∀ c ∈ w, isEol c = false) ∧ w.dropWhile (· == ' ') = w := by
  cases h with
  | before hp => exact ⟨p, [], (List.append_nil p).symm, rfl, hp, List.forall_mem_nil _, rfl⟩
  | @line p w c hp hc hw =>
    exact ⟨p, c :: w, rfl, rfl, hp, hw, List.dropWhile_cons_of_neg (by simpa using hc)⟩
  | after => exact absurd rfl hphase

end Scanned

/-- What is handed to `client_dopacket`. -/
def Extracted.lines (r : Extracted) : List Str :=
  if r.dolen = 0 then [] else [r.buffer.take r.dolen]

/-- What a call does to the queue. -/
structure ExtractSpec (q : DbufQueue) (r : Extracted) (consumed : Str) : Prop where
  counted : r.queue.Counted
  unread : q.unread = consumed ++ r.queue.unread
  completes : Completes consumed r.lines
  drained : r.dolen = 0 → refLines r.queue.unread = [] ∧ refTail r.queue.unread = r.queue.unread
  progress : r.dolen ≠ 0 → consumed ≠ []

theorem extractSpec_of_complete {q : DbufQueue} (hq : q.Counted) {s : Scan} {v w : Str}
    (hunread : q.unread = v ++ w) (h : Scanned s v) (hphase : s.phase = .after) :
    ∃ r, (q.delete (s.lineBytes + s.emptyBytes)).map
      (fun q => (⟨s.dolen, s.buffer, q⟩ : Extracted)) = some r ∧ ExtractSpec q r v := by
  obtain ⟨hcomp, hlen, hdolen, hne⟩ := h.complete hphase
  obtain ⟨q', hq', hcounted, hrest⟩ := hq.delete (s.lineBytes + s.emptyBytes)
    (by rw [hlen, hunread, List.length_append]; omega)
  rw [hq', Option.map_some]
  refine ⟨_, rfl, hcounted, ?_, ?_, fun h0 => absurd h0 hne, fun _ hnil => ?_⟩
  · rw [hrest, hlen, hunread, List.drop_left]
  · rw [Extracted.lines, if_neg hne, hdolen, List.take_length]
    exact hcomp
  · rw [hnil, List.length_nil] at hlen
    have : s.dolen ≤ s.lineBytes := min_le_left _ _
    omega

theorem extractOneLine_spec {q : DbufQueue} (hq : q.Counted) :
    ∃ r consumed, extractOneLine q = some r ∧ ExtractSpec q r consumed := by
  have hinit : Scanned Scan.init [] := Scanned.before (List.forall_mem_nil _)
  unfold extractOneLine
  rw [Scanned.blocks_eq]
  rcases hinit.chars q.unread with ⟨s, hs, h⟩ | ⟨s, v, w, hvw, hs, h, hphase⟩
  · rw [show q.blocks.flatMap (·.data) = q.unread from rfl, hs]
    rw [List.nil_append] at h
    by_cases hphase : s.phase = .after
    · dsimp only
      rw [if_neg (not_not.mpr hphase)]
      obtain ⟨r, hr, hspec⟩ := extractSpec_of_complete hq (List.append_nil _).symm h hphase
      exact ⟨r, q.unread, hr, hspec⟩
    · dsimp only
      rw [if_pos hphase]
      obtain ⟨l, w, hlw, hempty, hl, hw, hdrop⟩ := h.partialLine hphase
      obtain ⟨q', hq', hcounted, hrest⟩ := hq.delete (0 + s.emptyBytes)
        (by rw [hempty, hlw, List.length_append]; omega)
      rw [Nat.zero_add, hlw, hempty, List.drop_left] at hrest
      rw [hq', Option.map_some]
      refine ⟨_, l, rfl, hcounted, ?_, Completes.blanks hl, fun _ => ?_, fun h0 => ?_⟩
      · rw [hrest, hlw]
      · rw [hrest]
        exact ⟨refLines_of_noEol hw, (refTail_of_noEol hw).trans hdrop⟩
      · exact absurd (Nat.zero_min _) h0
  · rw [show q.blocks.flatMap (·.data) = q.unread from rfl, hs]
    obtain ⟨r, hr, hspec⟩ := extractSpec_of_complete hq hvw h hphase
    exact ⟨r, v, hr, hspec⟩

/-- The receive queue of a connection, with the lines that were delivered. -/
structure Receiver where
  queue : DbufQueue
  lines : List Str

namespace Receiver

def init : Receiver := ⟨.empty, []⟩

/-- One call of `extract_one_line`, and `client_dopacket` with its line: the number of
bytes, and what follows. -/
def extract (s : Receiver) : Option (ℕ × Receiver) :=
  (extractOneLine s.queue).map fun r => (r.dolen, ⟨r.queue, s.lines ++ r.lines⟩)

/-- The loop of `parse_client_queued` for servers; a call that returns 0 ends it. -/
def drainLoop : ℕ → Receiver → Option Receiver
  | 0, _ => none
  | fuel + 1, s =>
      match s.extract with
      | none => none
      | some (dolen, s) => if dolen = 0 then some s else drainLoop fuel s

def drain (s : Receiver) : Option Receiver := drainLoop (s.queue.totalSize + 1) s

/-- A packet arrives, or a line is taken. -/
inductive Event where
  | put (data : Str)
  | extract

def step (s : Receiver) : Event → Option Receiver
  | .put data => some { s with queue := s.queue.put data }
  | .extract => s.extract.map (·.2)

def run (events : List Event) : Option Receiver := events.foldlM step init

/-- The byte stream. -/
def received (events : List Event) : Str :=
  events.flatMap fun e => match e with
    | .put data => data
    | .extract => []

/-- What was delivered are the lines of the bytes that are gone. -/
structure Delivered (s : Receiver) (bytes consumed : Str) : Prop where
  counted : s.queue.Counted
  bytes : bytes = consumed ++ s.queue.unread
  completes : Completes consumed s.lines

namespace Delivered

variable {s : Receiver} {bytes consumed : Str}

theorem put (h : s.Delivered bytes consumed) (data : Str) :
    Delivered { s with queue := s.queue.put data } (bytes ++ data) consumed where
  counted := h.counted.put data
  bytes := by rw [h.bytes, DbufQueue.unread_put, List.append_assoc]
  completes := h.completes

theorem extract (h : s.Delivered bytes consumed) : ∃ dolen s' more,
    s.extract = some (dolen, s') ∧ s'.Delivered bytes (consumed ++ more) ∧
      (dolen = 0 → refLines s'.queue.unread = [] ∧ refTail s'.queue.unread = s'.queue.unread) ∧
      (dolen ≠ 0 → s'.queue.totalSize < s.queue.totalSize) := by
  obtain ⟨r, more, hr, hspec⟩ := extractOneLine_spec h.counted
  refine ⟨r.dolen, ⟨r.queue, s.lines ++ r.lines⟩, more, ?_, ⟨hspec.counted, ?_, ?_⟩,
    hspec.drained, fun hne => ?_⟩
  · rw [Receiver.extract, hr, Option.map_some]
  · rw [h.bytes, hspec.unread, List.append_assoc]
  · exact h.completes.append hspec.completes
  · have hlen := congrArg List.length hspec.unread
    have hpos := List.length_pos_iff.mpr (hspec.progress hne)
    rw [List.length_append] at hlen
    have hbefore : s.queue.totalSize = s.queue.unread.length := h.counted
    have hafter : r.queue.totalSize = r.queue.unread.length := hspec.counted
    rw [hbefore, hafter]
    omega

/-- At every moment: what was delivered, and then the lines in the queue. -/
theorem lines (h : s.Delivered bytes consumed) :
    s.lines ++ refLines s.queue.unread = refLines bytes := by
  rw [h.bytes, (h.completes _).1]

theorem drainLoop (h : s.Delivered bytes consumed) {fuel : ℕ} (hfuel : s.queue.totalSize < fuel) :
    ∃ s', Receiver.drainLoop fuel s = some s' ∧ s'.lines = refLines bytes ∧
      s'.queue.unread = refTail bytes ∧ s'.queue.Counted := by
  induction fuel generalizing s consumed with
  | zero => omega
  | succ fuel ih =>
      obtain ⟨dolen, s', more, hs', h', hdrained, hless⟩ := h.extract
      rw [Receiver.drainLoop, hs']
      dsimp only
      split
      · rename_i hzero
        obtain ⟨hlines, htail⟩ := hdrained hzero
        refine ⟨s', rfl, ?_, ?_, h'.counted⟩
        · rw [← h'.lines, hlines, List.append_nil]
        · rw [h'.bytes, (h'.completes _).2, htail]
      · rename_i hne
        have := hless hne
        exact ih h' (by omega)

theorem run (events : List Event) (h : s.Delivered bytes consumed) :
    ∃ s' consumed', events.foldlM step s = some s' ∧
      s'.Delivered (bytes ++ received events) consumed' := by
  induction events generalizing s bytes consumed with
  | nil => exact ⟨s, consumed, rfl, by rwa [received, List.flatMap_nil, List.append_nil]⟩
  | cons e events ih =>
      cases e with
      | put data =>
        obtain ⟨s', consumed', hs', h'⟩ := ih (h.put data)
        rw [List.append_assoc] at h'
        exact ⟨s', consumed', hs', h'⟩
      | extract =>
        obtain ⟨dolen, t, more, ht, hnext, -⟩ := h.extract
        obtain ⟨s', consumed', hs', h'⟩ := ih hnext
        refine ⟨s', consumed', ?_, h'⟩
        rw [List.foldlM_cons, step, ht]
        exact hs'

end Delivered

/-- However the stream is cut into packets and whenever lines are taken: no call fails,
the lines delivered so far are followed by those in the queue, and once the loop has
drained it they are the lines of the stream and its unterminated end is left. -/
theorem lines_of_run (events : List Event) : ∃ s, run events = some s ∧
    s.lines ++ refLines s.queue.unread = refLines (received events) ∧
    s.queue.unread <:+ received events ∧ s.queue.totalSize = s.queue.unread.length ∧
    ∃ s', s.drain = some s' ∧ s'.lines = refLines (received events) ∧
      s'.queue.unread = refTail (received events) ∧
      s'.queue.totalSize = s'.queue.unread.length := by
  have hinit : init.Delivered [] [] := ⟨DbufQueue.counted_empty, rfl, Completes.nil⟩
  obtain ⟨s, consumed, hs, h⟩ := hinit.run events
  rw [List.nil_append] at h
  exact ⟨s, hs, h.lines, ⟨consumed, h.bytes.symm⟩, h.counted, h.drainLoop (Nat.lt_succ_self _)⟩

end Receiver

end Unirc
