import Mathlib.Algebra.Order.Group.Int
import Unirc.Packet
import Unirc.Runs

/-!
# The rate of a client's commands

`parse_client_queued`, `flood_recalc` and `read_packet` of `packet.c`, for a registered client of
this server. What a command does to the rest of the server, and whether it ends the grace period or
the client, is left open.
-/

namespace Unirc

abbrev MAX_FLOOD : ℤ := 5

/-- A receive queue whose size counts its bytes. -/
abbrev RecvQueue := {q : DbufQueue // q.Counted}

namespace RecvQueue

def empty : RecvQueue := ⟨.empty, DbufQueue.counted_empty⟩

def put (q : RecvQueue) (data : Str) : RecvQueue := ⟨q.val.put data, q.property.put data⟩

/-- `extract_one_line`, which never fails. -/
def extract (q : RecvQueue) : Extracted :=
  (extractOneLine q.val).get (by
    obtain ⟨r, -, hr, -⟩ := extractOneLine_spec q.property
    rw [hr]
    rfl)

theorem extract_spec (q : RecvQueue) : ∃ consumed, ExtractSpec q.val q.extract consumed := by
  obtain ⟨r, consumed, hr, hspec⟩ := extractOneLine_spec q.property
  have heq : q.extract = r := by simp [extract, hr]
  exact ⟨consumed, heq ▸ hspec⟩

/-- What `extract_one_line` leaves. -/
def rest (q : RecvQueue) : RecvQueue :=
  ⟨q.extract.queue, q.extract_spec.choose_spec.counted⟩

/-- No complete line is in the queue. -/
def NoLine (q : RecvQueue) : Prop := refLines q.val.unread = []

theorem noLine_empty : NoLine empty := by
  rw [NoLine]
  exact refLines_of_noEol fun c hc => by cases hc

theorem noLine_rest {q : RecvQueue} (h : q.extract.dolen = 0) : q.rest.NoLine := by
  obtain ⟨consumed, hspec⟩ := q.extract_spec
  exact (hspec.drained h).1

theorem rest_lt {q : RecvQueue} (h : q.extract.dolen ≠ 0) :
    q.rest.val.totalSize < q.val.totalSize := by
  obtain ⟨consumed, hspec⟩ := q.extract_spec
  have hlen := congrArg List.length hspec.unread
  have hpos := List.length_pos_iff.mpr (hspec.progress h)
  rw [List.length_append] at hlen
  have hbefore : q.val.totalSize = q.val.unread.length := q.property
  have hafter : q.rest.val.totalSize = q.extract.queue.unread.length := q.rest.property
  omega

end RecvQueue

/-- What a command did: the rest of the server behind it, whether it called `flood_endgrace`, and
whether it ended the client. -/
structure CommandResult (ω : Type*) where
  world : ω
  endsGrace : Bool
  exits : Bool

/-- What the rest of the server decides for a client. -/
structure FloodWorld (ω : Type*) where
  noOperFlood : ω → Bool
  trueNoOperFlood : ω → Bool
  isOper : ω → Bool
  isCanFlood : ω → Bool
  clientFlood : ω → ℕ
  parse : ω → Str → CommandResult ω

/-- A registered client, with the number of its lines that were executed. -/
structure FloodClient (ω : Type*) where
  world : ω
  queue : RecvQueue
  defunct : Bool
  floodDone : Bool
  allowRead : ℤ
  sentParsed : ℤ
  executed : ℕ

inductive FloodEvent (ω : Type*)
  | packet (data : Str)
  | readError
  | floodRecalc
  | other (world : ω) (exits : Bool)

def FloodEvent.isRecalc {ω : Type*} : FloodEvent ω → Bool
  | .floodRecalc => true
  | _ => false

namespace FloodClient

variable {ω : Type*} (s : FloodClient ω)

/-- `flood_endgrace`. -/
def floodEndgrace : FloodClient ω :=
  { s with floodDone := true, allowRead := MAX_FLOOD, sentParsed := 0 }

/-- `exit_client` and `dead_link_on_write`, which clear the queue. -/
def exitClient : FloodClient ω := { s with defunct := true, queue := .empty }

def exitIf (exits : Bool) : FloodClient ω := if exits then s.exitClient else s

end FloodClient

namespace FloodWorld

variable {ω : Type*} (W : FloodWorld ω) (s : FloodClient ω)

/-- What `parse_client_queued` finds out in front of its loop. -/
def checkflood (w : ω) : ℤ :=
  if W.noOperFlood w && (W.isOper w || W.isCanFlood w) then
    if W.trueNoOperFlood w then -1 else 0
  else 1

/-- `client_dopacket`; the handlers call `flood_endgrace` unless the flag is set. -/
def clientDopacket (line : Str) : FloodClient ω :=
  let r := W.parse s.world line
  let s := { s with world := r.world, executed := s.executed + 1 }
  let s := if r.endsGrace && !s.floodDone then s.floodEndgrace else s
  s.exitIf r.exits

/-- A turn of the loop: the line, and `sent_parsed++`. -/
def runLine (line : Str) : FloodClient ω :=
  let t := W.clientDopacket s line
  { t with sentParsed := t.sentParsed + 1 }

/-- The loop for clients; the number bounds its turns. -/
def parseLoop (checkflood : ℤ) : ℕ → FloodClient ω → Option (FloodClient ω)
  | 0, _ => none
  | fuel + 1, s =>
      if s.defunct then some s
      else if 0 < checkflood ∧ s.allowRead ≤ s.sentParsed then some s
      else if ¬ 0 < checkflood ∧ 4 * s.allowRead ≤ s.sentParsed ∧ checkflood ≠ -1 then some s
      else
        let line := s.queue.extract.buffer.take s.queue.extract.dolen
        let t := { s with queue := s.queue.rest }
        if s.queue.extract.dolen = 0 then some t
        else parseLoop checkflood fuel (W.runLine t line)

theorem queue_clientDopacket_le (line : Str) :
    (W.clientDopacket s line).queue.val.totalSize ≤ s.queue.val.totalSize := by
  simp only [clientDopacket, FloodClient.exitIf]
  split
  · exact Nat.zero_le _
  · split <;> exact le_rfl

theorem parseLoop_isSome (checkflood : ℤ) {fuel : ℕ} {s : FloodClient ω}
    (h : s.queue.val.totalSize < fuel) : (W.parseLoop checkflood fuel s).isSome := by
  induction fuel generalizing s with
  | zero => omega
  | succ fuel ih =>
      rw [parseLoop]
      split
      · rfl
      split
      · rfl
      split
      · rfl
      dsimp only
      split
      · rfl
      case isFalse hline =>
        have hrest := RecvQueue.rest_lt hline
        refine ih (lt_of_le_of_lt (W.queue_clientDopacket_le _ _) ?_)
        dsimp only
        omega

/-- `parse_client_queued`. -/
def parseClientQueued : FloodClient ω :=
  (W.parseLoop (W.checkflood s.world) (s.queue.val.totalSize + 1) s).get
    (W.parseLoop_isSome _ (Nat.lt_succ_self _))

/-- A turn of the loop of `read_packet`. -/
def readPacket (data : Str) : FloodClient ω :=
  if s.defunct then s
  else
    let s := W.parseClientQueued { s with queue := s.queue.put data }
    if s.defunct then s
    else s.exitIf (W.clientFlood s.world < s.queue.val.totalSize &&
      !(W.noOperFlood s.world && W.isOper s.world))

/-- `flood_recalc`. -/
def floodRecalc : FloodClient ω :=
  let sent := if s.floodDone then s.sentParsed - 2 else 0
  W.parseClientQueued { s with sentParsed := if sent < 0 then 0 else sent }

def step (s : FloodClient ω) : FloodEvent ω → FloodClient ω
  | .packet data => W.readPacket s data
  | .readError => if s.defunct then s else s.exitClient
  | .floodRecalc => W.floodRecalc s
  | .other world exits => { s with world := world }.exitIf exits

end FloodWorld

namespace FloodClient

variable {ω : Type*}

/-- The number of lines that the loop lets through, with this `checkflood`. -/
def limit (checkflood : ℤ) (s : FloodClient ω) : ℤ :=
  if 0 < checkflood then s.allowRead else 4 * s.allowRead

/-- Just registered. -/
structure Registered (s : FloodClient ω) : Prop where
  defunct : s.defunct = false
  floodDone : s.floodDone = false
  allowRead : s.allowRead = 8 * MAX_FLOOD
  sentParsed : s.sentParsed = 0

/-- What holds of every client of this server. -/
structure Sane (s : FloodClient ω) : Prop where
  nonneg : 0 ≤ s.sentParsed
  cleared : s.defunct = true → s.queue.NoLine
  graced : s.floodDone = true → s.allowRead = MAX_FLOOD

def Bounded (checkflood : ℤ) (s : FloodClient ω) : Prop :=
  s.floodDone = true → s.sentParsed ≤ s.limit checkflood

variable {s : FloodClient ω}

theorem Registered.sane (h : s.Registered) : s.Sane where
  nonneg := h.sentParsed.ge
  cleared hd := by
    rw [h.defunct] at hd
    cases hd
  graced hd := by
    rw [h.floodDone] at hd
    cases hd

theorem Sane.exitIf (h : s.Sane) (exits : Bool) : (s.exitIf exits).Sane := by
  rw [FloodClient.exitIf]
  split
  · exact ⟨h.nonneg, fun _ => RecvQueue.noLine_empty, h.graced⟩
  · exact h

@[simp] theorem floodDone_exitIf (exits : Bool) : (s.exitIf exits).floodDone = s.floodDone := by
  rw [FloodClient.exitIf]
  split <;> rfl

@[simp] theorem allowRead_exitIf (exits : Bool) : (s.exitIf exits).allowRead = s.allowRead := by
  rw [FloodClient.exitIf]
  split <;> rfl

@[simp] theorem sentParsed_exitIf (exits : Bool) :
    (s.exitIf exits).sentParsed = s.sentParsed := by
  rw [FloodClient.exitIf]
  split <;> rfl

@[simp] theorem executed_exitIf (exits : Bool) : (s.exitIf exits).executed = s.executed := by
  rw [FloodClient.exitIf]
  split <;> rfl

end FloodClient

namespace FloodWorld

variable {ω : Type*} (W : FloodWorld ω) {s t : FloodClient ω} {c : ℤ}

theorem sane_clientDopacket (h : s.Sane) (line : Str) : (W.clientDopacket s line).Sane := by
  refine FloodClient.Sane.exitIf ?_ _
  split
  · exact ⟨le_rfl, h.cleared, fun _ => rfl⟩
  · exact ⟨h.nonneg, h.cleared, h.graced⟩

theorem sane_runLine (h : s.Sane) (line : Str) : (W.runLine s line).Sane := by
  have hnext := W.sane_clientDopacket h line
  exact ⟨Int.add_nonneg hnext.nonneg Int.one_nonneg, hnext.cleared, hnext.graced⟩

theorem clientDopacket_of_floodDone (h : s.floodDone = true) (line : Str) :
    (W.clientDopacket s line).floodDone = true ∧
      (W.clientDopacket s line).allowRead = s.allowRead ∧
      (W.clientDopacket s line).sentParsed = s.sentParsed ∧
      (W.clientDopacket s line).executed = s.executed + 1 := by
  simp [clientDopacket, h]

/-- A command in the grace period goes on with it, or ends it. -/
theorem clientDopacket_of_grace (h : s.floodDone = false) (line : Str) :
    (W.clientDopacket s line).floodDone = false ∨
      (W.clientDopacket s line).sentParsed = 0 ∧
        (W.clientDopacket s line).allowRead = MAX_FLOOD := by
  cases hends : (W.parse s.world line).endsGrace with
  | false => exact .inl (by simp [clientDopacket, h, hends])
  | true => exact .inr (by simp [clientDopacket, h, hends, FloodClient.floodEndgrace])

/-- A line that is executed below the limit stays within it. -/
theorem bounded_line (hlimit : s.floodDone = true → s.sentParsed < s.limit c)
    (line : Str) :
    (W.runLine s line).Bounded c := by
  intro hdone
  change (W.clientDopacket s line).sentParsed + 1 ≤ (W.clientDopacket s line).limit c
  cases hs : s.floodDone with
  | true =>
      obtain ⟨-, hallow, hsent, -⟩ := W.clientDopacket_of_floodDone hs line
      have hlt := hlimit hs
      rw [FloodClient.limit] at hlt ⊢
      rw [hsent, hallow]
      exact hlt
  | false =>
      obtain hnot | ⟨hsent, hallow⟩ := W.clientDopacket_of_grace hs line
      · exact absurd hdone (by simp [runLine, hnot])
      · have hflood : MAX_FLOOD = 5 := rfl
        rw [FloodClient.limit, hsent, hallow, hflood]
        split <;> omega

/-- What a run of the loop keeps, whatever the class of the client. -/
theorem parseLoop_sane {fuel : ℕ} (h : s.Sane) (hloop : W.parseLoop c fuel s = some t) :
    t.Sane ∧ (s.floodDone = true → t.floodDone = true ∧
      (t.executed : ℤ) - t.sentParsed = s.executed - s.sentParsed) := by
  induction fuel generalizing s with
  | zero => cases hloop
  | succ fuel ih =>
      rw [parseLoop] at hloop
      split at hloop
      · cases hloop
        exact ⟨h, fun hd => ⟨hd, rfl⟩⟩
      case isFalse halive =>
        split at hloop
        · cases hloop
          exact ⟨h, fun hd => ⟨hd, rfl⟩⟩
        split at hloop
        · cases hloop
          exact ⟨h, fun hd => ⟨hd, rfl⟩⟩
        have hrest : FloodClient.Sane { s with queue := s.queue.rest } :=
          ⟨h.nonneg, fun hd => absurd hd halive, h.graced⟩
        dsimp only at hloop
        split at hloop
        · cases hloop
          exact ⟨hrest, fun hd => ⟨hd, rfl⟩⟩
        · generalize hline : s.queue.extract.buffer.take s.queue.extract.dolen = line at hloop
          obtain ⟨hsane, hdone⟩ := ih (W.sane_runLine hrest line) hloop
          refine ⟨hsane, fun hd => ?_⟩
          obtain ⟨hd', -, hsent, hexec⟩ := W.clientDopacket_of_floodDone
            (s := { s with queue := s.queue.rest }) hd line
          obtain ⟨htdone, heq⟩ := hdone hd'
          refine ⟨htdone, heq.trans ?_⟩
          simp only [runLine, hsent, hexec]
          omega

/-- How the loop ends for a client with a limit. -/
theorem parseLoop_bounded {fuel : ℕ} (hc : c ≠ -1) (h : s.Sane) (hb : s.Bounded c)
    (hloop : W.parseLoop c fuel s = some t) :
    t.Bounded c ∧ (t.floodDone = true → t.queue.NoLine ∨ t.sentParsed = t.limit c) := by
  induction fuel generalizing s with
  | zero => cases hloop
  | succ fuel ih =>
      rw [parseLoop] at hloop
      split at hloop
      case isTrue hdead =>
        cases hloop
        exact ⟨hb, fun _ => .inl (h.cleared hdead)⟩
      case isFalse halive =>
        split at hloop
        case isTrue hfull =>
          cases hloop
          refine ⟨hb, fun hd => .inr (le_antisymm (hb hd) ?_)⟩
          rw [FloodClient.limit, if_pos hfull.1]
          exact hfull.2
        case isFalse hroom =>
          split at hloop
          case isTrue hfull =>
            cases hloop
            refine ⟨hb, fun hd => .inr (le_antisymm (hb hd) ?_)⟩
            rw [FloodClient.limit, if_neg hfull.1]
            exact hfull.2.1
          case isFalse hroom' =>
            have hbelow : s.sentParsed < s.limit c := by
              rw [FloodClient.limit]
              split
              case isTrue hpos => exact not_le.mp fun hle => hroom ⟨hpos, hle⟩
              case isFalse hpos => exact not_le.mp fun hle => hroom' ⟨hpos, hle, hc⟩
            have hrest : FloodClient.Sane { s with queue := s.queue.rest } :=
              ⟨h.nonneg, fun hd => absurd hd halive, h.graced⟩
            dsimp only at hloop
            split at hloop
            case isTrue hnone =>
              cases hloop
              exact ⟨hb, fun _ => .inl (RecvQueue.noLine_rest hnone)⟩
            case isFalse =>
              generalize hline : s.queue.extract.buffer.take s.queue.extract.dolen = line at hloop
              exact ih (W.sane_runLine hrest line)
                (W.bounded_line (s := { s with queue := s.queue.rest }) (fun _ => hbelow) line)
                hloop

theorem parseLoop_parseClientQueued (s : FloodClient ω) :
    W.parseLoop (W.checkflood s.world) (s.queue.val.totalSize + 1) s =
      some (W.parseClientQueued s) := by
  rw [parseClientQueued, Option.some_get]

/-- Lines that were executed and not yet forgiven. -/
def Paid (s t : FloodClient ω) (credit : ℤ) : Prop :=
  s.floodDone = true → t.floodDone = true ∧
    (t.executed : ℤ) - t.sentParsed ≤ s.executed - s.sentParsed + credit

theorem parseClientQueued_paid (h : s.Sane) : Paid s (W.parseClientQueued s) 0 := by
  intro hd
  obtain ⟨htdone, heq⟩ :=
    (W.parseLoop_sane h (W.parseLoop_parseClientQueued s)).2 hd
  exact ⟨htdone, by omega⟩

theorem sane_parseClientQueued (h : s.Sane) : (W.parseClientQueued s).Sane :=
  (W.parseLoop_sane h (W.parseLoop_parseClientQueued s)).1

section Steps

variable {e : FloodEvent ω}

/-- The counter behind the subtraction of `flood_recalc`. -/
def forgiven (s : FloodClient ω) : FloodClient ω :=
  { s with sentParsed :=
      if (if s.floodDone then s.sentParsed - 2 else 0) < 0 then 0
      else if s.floodDone then s.sentParsed - 2 else 0 }

theorem floodRecalc_eq : W.floodRecalc s = W.parseClientQueued (forgiven s) := rfl

theorem sane_forgiven (h : s.Sane) : (forgiven s).Sane := by
  refine ⟨?_, h.cleared, h.graced⟩
  simp only [forgiven]
  cases s.floodDone <;> simp only [if_true, Bool.false_eq_true, if_false] <;> split <;> omega

theorem sentParsed_forgiven_le (h : s.Sane) : (forgiven s).sentParsed ≤ s.sentParsed := by
  have hnonneg := h.nonneg
  simp only [forgiven]
  cases s.floodDone <;> simp only [if_true, Bool.false_eq_true, if_false] <;> split <;> omega

theorem sane_step (h : s.Sane) : (W.step s e).Sane := by
  cases e with
  | packet data =>
      rw [step, readPacket]
      split
      · exact h
      case isFalse halive =>
        have hput : FloodClient.Sane { s with queue := s.queue.put data } :=
          ⟨h.nonneg, fun hd => absurd hd halive, h.graced⟩
        have hparse := W.sane_parseClientQueued hput
        dsimp only
        split
        · exact hparse
        · exact hparse.exitIf _
  | readError =>
      rw [step]
      split
      · exact h
      · exact h.exitIf true
  | floodRecalc => exact W.sane_parseClientQueued (sane_forgiven h)
  | other world exits =>
      exact FloodClient.Sane.exitIf (s := { s with world := world })
        ⟨h.nonneg, h.cleared, h.graced⟩ exits

/-- What an event does to the lines that are not paid for. -/
theorem paid_step (h : s.Sane) : Paid s (W.step s e) (if e.isRecalc then 2 else 0) := by
  cases e with
  | packet data =>
      rw [step, readPacket]
      split
      · exact fun hd => ⟨hd, by simp [FloodEvent.isRecalc]⟩
      case isFalse halive =>
        have hput : FloodClient.Sane { s with queue := s.queue.put data } :=
          ⟨h.nonneg, fun hd => absurd hd halive, h.graced⟩
        have hpaid := W.parseClientQueued_paid hput
        dsimp only
        split
        · exact hpaid
        · simpa only [Paid, FloodClient.floodDone_exitIf, FloodClient.sentParsed_exitIf,
            FloodClient.executed_exitIf, FloodEvent.isRecalc, Bool.false_eq_true, if_false]
            using hpaid
  | readError =>
      rw [step]
      split <;> exact fun hd => ⟨hd, by simp [FloodEvent.isRecalc, FloodClient.exitClient]⟩
  | floodRecalc =>
      intro hd
      obtain ⟨htdone, hle⟩ := W.parseClientQueued_paid (sane_forgiven h) hd
      refine ⟨htdone, ?_⟩
      have hback : s.sentParsed - 2 ≤ (forgiven s).sentParsed := by
        simp only [forgiven, hd, if_true]
        split <;> omega
      have hexec : (forgiven s).executed = s.executed := rfl
      simp only [FloodEvent.isRecalc, if_true, step, floodRecalc_eq]
      rw [hexec] at hle
      omega
  | other world exits =>
      intro hd
      simp [step, FloodEvent.isRecalc, hd]

/-- `checkflood` for a client that is not exempt, and for an operator who is not fully exempt. -/
def level (oper : Bool) : ℤ := if oper then 0 else 1

/-- The class in which the client's lines are parsed: fixed from the end of the grace period on,
which a user may end who is an operator behind that. -/
def InClass (oper : Bool) (s : FloodClient ω) (e : FloodEvent ω) : Prop :=
  W.checkflood s.world = level oper ∨
    s.floodDone = false ∧ ((W.step s e).floodDone = false ∨ W.checkflood s.world = 1)

theorem limit_one_le (h : t.Sane) (hd : t.floodDone = true) (oper : Bool) :
    t.limit 1 ≤ t.limit (level oper) := by
  have hflood : t.allowRead = 5 := h.graced hd
  cases oper <;> simp [FloodClient.limit, level, hflood]

theorem parseClientQueued_bounded {oper : Bool} (h : s.Sane) (hb : s.Bounded (level oper))
    (hclass : W.checkflood s.world = level oper ∨
      s.floodDone = false ∧ W.checkflood s.world = 1) :
    (W.parseClientQueued s).Bounded (level oper) := by
  have hloop := W.parseLoop_parseClientQueued s
  obtain hlevel | ⟨hgrace, hone⟩ := hclass
  · rw [hlevel] at hloop
    exact (W.parseLoop_bounded (by cases oper <;> decide) h hb hloop).1
  · rw [hone] at hloop
    have hone' : s.Bounded 1 := fun hd => absurd hd (by simp [hgrace])
    intro hd
    exact ((W.parseLoop_bounded (by decide) h hone' hloop).1 hd).trans
      (limit_one_le (W.sane_parseClientQueued h) hd oper)

theorem bounded_exitIf (hb : s.Bounded c) (exits : Bool) : (s.exitIf exits).Bounded c := by
  intro hd
  simpa [FloodClient.limit] using hb (by simpa using hd)

theorem bounded_step {oper : Bool} (h : s.Sane) (hb : s.Bounded (level oper))
    (hclass : W.InClass oper s e) : (W.step s e).Bounded (level oper) := by
  by_cases hdone : (W.step s e).floodDone = true
  case neg => exact fun hd => absurd hd hdone
  have hparsed : W.checkflood s.world = level oper ∨
      s.floodDone = false ∧ W.checkflood s.world = 1 := by
    obtain hlevel | ⟨hgrace, hnot | hone⟩ := hclass
    · exact .inl hlevel
    · rw [hnot] at hdone
      cases hdone
    · exact .inr ⟨hgrace, hone⟩
  cases e with
  | packet data =>
      rw [step, readPacket]
      split
      · exact hb
      case isFalse halive =>
        have hput : FloodClient.Sane { s with queue := s.queue.put data } :=
          ⟨h.nonneg, fun hd => absurd hd halive, h.graced⟩
        have hparse := W.parseClientQueued_bounded hput hb hparsed
        dsimp only
        split
        · exact hparse
        · exact bounded_exitIf hparse _
  | readError =>
      rw [step]
      split
      · exact hb
      · exact bounded_exitIf hb true
  | floodRecalc =>
      have hb' : (forgiven s).Bounded (level oper) := fun hd =>
        (sentParsed_forgiven_le h).trans (hb hd)
      exact W.parseClientQueued_bounded (sane_forgiven h) hb' hparsed
  | other world exits =>
      exact bounded_exitIf (s := { s with world := world }) hb exits

/-- `flood_recalc` parses until no line is left or the limit is reached. -/
theorem recalc_exhausts {oper : Bool} (h : s.Sane) (hb : s.Bounded (level oper))
    (hlevel : W.checkflood s.world = level oper) (hd : (W.floodRecalc s).floodDone = true) :
    (W.floodRecalc s).queue.NoLine ∨
      (W.floodRecalc s).sentParsed = (W.floodRecalc s).limit (level oper) := by
  have hb' : (forgiven s).Bounded (level oper) := fun hd =>
    (sentParsed_forgiven_le h).trans (hb hd)
  have hloop := W.parseLoop_parseClientQueued (forgiven s)
  rw [show W.checkflood (forgiven s).world = level oper from hlevel] at hloop
  exact (W.parseLoop_bounded (by cases oper <;> decide) (sane_forgiven h) hb' hloop).2 hd

theorem sum_credit (part : List (FloodEvent ω)) :
    (part.map fun e => if e.isRecalc then (2 : ℤ) else 0).sum =
      2 * part.countP FloodEvent.isRecalc := by
  induction part with
  | nil => rfl
  | cons e part ih =>
      rw [List.map_cons, List.sum_cons, ih, List.countP_cons]
      cases e.isRecalc with
      | false => simp
      | true =>
          simp only [if_true]
          push_cast
          omega

end Steps

/-- Sane, and within the limit of the class. -/
def Within (oper : Bool) (s : FloodClient ω) : Prop := s.Sane ∧ s.Bounded (level oper)

theorem run_within {oper : Bool} {es : List (FloodEvent ω)} (h : Within oper s)
    (hclass : Runs.Each W.step (W.InClass oper) s es) : Within oper (es.foldl W.step s) :=
  Runs.invariant (fun _ _ hs hc => ⟨W.sane_step hs.1, W.bounded_step hs.1 hs.2 hc⟩) h hclass

/-- The lines that a part of a run executes are paid for by the counter and the forgiveness. -/
theorem run_paid (h : s.Sane) (hd : s.floodDone = true) (part : List (FloodEvent ω)) :
    ((part.foldl W.step s).executed : ℤ) - (part.foldl W.step s).sentParsed ≤
      s.executed - s.sentParsed + 2 * part.countP FloodEvent.isRecalc := by
  rw [← sum_credit]
  exact Runs.potential (P := fun s : FloodClient ω => s.Sane ∧ s.floodDone = true)
    (fun s e hs => ⟨W.sane_step hs.1, (W.paid_step hs.1 hs.2).1⟩)
    (fun s e hs => (W.paid_step hs.1 hs.2).2) ⟨h, hd⟩ part

theorem run_floodDone (h : s.Sane) (hd : s.floodDone = true) (part : List (FloodEvent ω)) :
    (part.foldl W.step s).floodDone = true := by
  have hkeep : (part.foldl W.step s).Sane ∧ (part.foldl W.step s).floodDone = true :=
    Runs.keeps (P := fun s : FloodClient ω => s.Sane ∧ s.floodDone = true)
      (fun s e hs => ⟨W.sane_step hs.1, (W.paid_step hs.1 hs.2).1⟩) ⟨h, hd⟩ part
  exact hkeep.2

/-- The rate limit of a client in its class, from the end of its grace period on. -/
theorem rate_limit (oper : Bool) {s₀ : FloodClient ω} (h₀ : s₀.Registered)
    (pre part : List (FloodEvent ω))
    (hclass : Runs.Each W.step (W.InClass oper) s₀ (pre ++ part))
    (hgrace : (pre.foldl W.step s₀).floodDone = true) :
    let s := pre.foldl W.step s₀
    let t := part.foldl W.step s
    let limit := if oper then 4 * t.allowRead else t.allowRead
    (0 < t.allowRead ∧ t.allowRead = s.allowRead) ∧ (0 ≤ t.sentParsed ∧ t.sentParsed ≤ limit) ∧
      (t.executed : ℤ) - s.executed ≤ limit + 2 * part.countP FloodEvent.isRecalc ∧
      ∀ front, part = front ++ [.floodRecalc] → t.queue.NoLine ∨ t.sentParsed = limit := by
  intro s t limit
  have hstart : Within oper s₀ := ⟨h₀.sane, fun hd => absurd hd (by simp [h₀.floodDone])⟩
  obtain ⟨hpre, hpart⟩ := Runs.Each.append_iff.mp hclass
  have hs : Within oper s := W.run_within hstart hpre
  have ht : Within oper t := W.run_within hs hpart
  have htdone : t.floodDone = true := W.run_floodDone hs.1 hgrace part
  have hlimit : t.limit (level oper) = limit := by
    simp only [limit]
    cases oper <;> rfl
  have hupper : t.sentParsed ≤ limit := hlimit ▸ ht.2 htdone
  have hallow : t.allowRead = 5 := ht.1.graced htdone
  refine ⟨⟨by omega, hallow.trans (hs.1.graced hgrace).symm⟩, ⟨ht.1.nonneg, hupper⟩, ?_, ?_⟩
  · have hpaid := W.run_paid hs.1 hgrace part
    have hnonneg := hs.1.nonneg
    change (t.executed : ℤ) - t.sentParsed ≤ _ at hpaid
    omega
  · rintro front rfl
    obtain ⟨hfront, hlast, -⟩ := Runs.Each.append_iff.mp hpart
    have hu := W.run_within hs hfront
    have heq : t = W.floodRecalc (front.foldl W.step s) := by
      rw [show t = (front ++ [FloodEvent.floodRecalc]).foldl W.step s from rfl, List.foldl_append]
      rfl
    have hudone := W.run_floodDone hs.1 hgrace front
    have hlevel : W.checkflood (front.foldl W.step s).world = level oper := by
      obtain hlevel | ⟨hnot, -⟩ := hlast
      · exact hlevel
      · rw [hudone] at hnot
        cases hnot
    rw [← hlimit]
    rw [heq] at htdone ⊢
    exact W.recalc_exhausts hu.1 hu.2 hlevel htdone

/-- A server without operators on which every command ends the grace period. -/
def plainWorld : FloodWorld Unit where
  noOperFlood _ := false
  trueNoOperFlood _ := false
  isOper _ := false
  isCanFlood _ := false
  clientFlood _ := 2560
  parse _ _ := ⟨(), true, false⟩

/-- A client with two lines in its queue. -/
def newcomer : FloodClient Unit where
  world := ()
  queue := ⟨⟨[⟨"AWAY\nTIME\n".toList, by decide⟩], 10⟩, rfl⟩
  defunct := false
  floodDone := false
  allowRead := 40
  sentParsed := 0
  executed := 0

theorem rate_limit_newcomer :
    let s := [FloodEvent.floodRecalc].foldl plainWorld.step newcomer
    let t := [FloodEvent.floodRecalc].foldl plainWorld.step s
    s.floodDone = true ∧ (0 ≤ t.sentParsed ∧ t.sentParsed ≤ t.allowRead) ∧
      (t.executed : ℤ) - s.executed ≤ t.allowRead + 2 := by
  have hdone : ([FloodEvent.floodRecalc].foldl plainWorld.step newcomer).floodDone = true := by
    decide +kernel
  obtain ⟨-, hsent, hexec, -⟩ := plainWorld.rate_limit false ⟨rfl, rfl, rfl, rfl⟩
    [.floodRecalc] [.floodRecalc] ⟨.inl rfl, .inl rfl, trivial⟩ hdone
  exact ⟨hdone, hsent, hexec⟩

end FloodWorld

end Unirc
