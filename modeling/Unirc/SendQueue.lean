import Unirc.Dbuf
import Unirc.Runs

/-!
# The queue to a socket

`send_message` and `send_queued_write` of `send.c` on the queue of one connection. What the socket
took is a prefix of the messages that were queued, whatever part of a block each `send` takes.
-/

namespace Unirc

/-- What `send` or `SSL_write` returns: a length, or an error that is ignored or not; with SSL also
that there is something to read first. -/
inductive SendRet where
  | sent (n : ℕ) | wouldBlock | fatal | wantRead

/-- A message of `send_message`; `dbuf_put` asserts that it is not empty. -/
abbrev SendMessage := {buf : Str // buf ≠ []}

/-- A connection: its queue with the flags, and what was queued and what the socket took.
`defunct` is for a client that is closing or killed, and `fault` for a failed assertion. -/
structure SendLink where
  sendq : DbufQueue
  dead : Bool
  sendqBlocked : Bool
  defunct : Bool
  fault : Bool
  queued : Str
  taken : Str

namespace SendLink

def init : SendLink := ⟨.empty, false, false, false, false, [], []⟩

/-- `dbuf_clear` of the queue in `dead_link_on_write`, and the flag. -/
def deadLinkOnWrite (s : SendLink) : SendLink :=
  if s.dead = true ∨ s.defunct = true then s
  else match s.sendq.delete s.sendq.totalSize with
    | none => { s with fault := true }
    | some q => { s with sendq := q, dead := true }

/-- The loop of `send_queued_write` and the test behind it, with the results of the calls of `send`;
where they end the socket takes no more for now. -/
def writeLoop (s : SendLink) : List SendRet → SendLink
  | [] => { s with sendqBlocked := true }
  | ret :: rets =>
      match s.sendq.blocks with
      | [] => { s with fault := true }
      | first :: _ =>
          match ret with
          | .wantRead => s
          | .wouldBlock => { s with sendqBlocked := true }
          | .fatal => s.deadLinkOnWrite
          | .sent n =>
              let retlen := min n first.size
              if retlen = 0 then s.deadLinkOnWrite
              else match s.sendq.delete retlen with
                | none => { s with fault := true }
                | some q =>
                    let s := { s with sendq := q, taken := s.taken ++ first.data.take retlen }
                    if q.totalSize = 0 then s else writeLoop s rets

def sendQueuedWrite (s : SendLink) (rets : List SendRet) : SendLink :=
  if s.dead = true ∨ s.sendqBlocked = true then s
  else if s.sendq.totalSize = 0 then s
  else s.writeLoop rets

/-- The length from which a queue is written at once. -/
def writeLength (server : Bool) : ℕ := if server then 1024 else 4096

/-- `send_message` to a client whose class allows a queue of `maxSendq` bytes. -/
def sendMessage (s : SendLink) (buf : SendMessage) (maxSendq : ℕ) (server : Bool)
    (rets : List SendRet) : SendLink :=
  if maxSendq < s.sendq.totalSize + buf.val.length then s.deadLinkOnWrite
  else
    let s := { s with sendq := s.sendq.put buf.val, queued := s.queued ++ buf.val }
    if writeLength server < s.sendq.totalSize then s.sendQueuedWrite rets else s

end SendLink

inductive SendEvent where
  | sendMessage (buf : SendMessage) (maxSendq : ℕ) (server : Bool) (rets : List SendRet)
  | sendQueuedWrite (rets : List SendRet)
  | sendqUnblocked
  | closing

namespace SendLink

def step (s : SendLink) : SendEvent → SendLink
  | .sendMessage buf maxSendq server rets => s.sendMessage buf maxSendq server rets
  | .sendQueuedWrite rets => s.sendQueuedWrite rets
  | .sendqUnblocked => { s with sendqBlocked := false }
  | .closing => { s with defunct := true }

/-- What is left in the queue comes right behind what the socket took. -/
structure Sound (s : SendLink) : Prop where
  fault : s.fault = false
  counted : s.sendq.Counted
  filled : s.sendq.Filled
  isPrefix : s.taken <+: s.queued
  whole : s.dead = false → s.queued = s.taken ++ s.sendq.unread

variable {s : SendLink}

theorem sound_init : Sound init where
  fault := rfl
  counted := DbufQueue.counted_empty
  filled _ hb := (List.not_mem_nil hb).elim
  isPrefix := List.prefix_rfl
  whole _ := rfl

theorem Sound.flag (h : Sound s) (blocked defunct : Bool) :
    Sound { s with sendqBlocked := blocked, defunct := defunct } :=
  ⟨h.fault, h.counted, h.filled, h.isPrefix, h.whole⟩

theorem Sound.deadLinkOnWrite (h : Sound s) : Sound s.deadLinkOnWrite := by
  unfold SendLink.deadLinkOnWrite
  split
  · exact h
  · obtain ⟨q, hq, hcounted, hfilled, -⟩ := DbufQueue.delete_spec h.counted h.filled le_rfl
    rw [hq]
    exact ⟨h.fault, hcounted, hfilled, h.isPrefix, fun hd => by cases hd⟩

/-- What the socket takes of the first block is deleted from the queue. -/
theorem Sound.take (h : Sound s) (hdead : s.dead = false) {first : DbufBlock}
    {rest : List DbufBlock} (hblocks : s.sendq.blocks = first :: rest) {retlen : ℕ}
    (hle : retlen ≤ first.size) : ∃ q, s.sendq.delete retlen = some q ∧
      Sound { s with sendq := q, taken := s.taken ++ first.data.take retlen } := by
  have hunread : s.sendq.unread = first.data ++ rest.flatMap (·.data) := by
    rw [DbufQueue.unread, hblocks, List.flatMap_cons]
  have hcount : retlen ≤ s.sendq.totalSize := by
    rw [h.counted, hunread, List.length_append]
    exact hle.trans (Nat.le_add_right _ _)
  obtain ⟨q, hq, hcounted, hfilled, hdrop⟩ := DbufQueue.delete_spec h.counted h.filled hcount
  have hsplit : s.sendq.unread = first.data.take retlen ++ q.unread := by
    rw [hdrop, ← List.take_append_of_le_length (hle : retlen ≤ first.data.length), ← hunread,
      List.take_append_drop]
  have hwhole : s.queued = (s.taken ++ first.data.take retlen) ++ q.unread := by
    rw [h.whole hdead, hsplit, List.append_assoc]
  exact ⟨q, hq, h.fault, hcounted, hfilled, ⟨_, hwhole.symm⟩, fun _ => hwhole⟩

theorem Sound.writeLoop (h : Sound s) (hdead : s.dead = false) (hsome : s.sendq.totalSize ≠ 0)
    (rets : List SendRet) : Sound (s.writeLoop rets) := by
  induction rets generalizing s with
  | nil => exact h.flag true s.defunct
  | cons ret rets ih =>
      rw [SendLink.writeLoop]
      split
      · rename_i hnil
        have hzero : s.sendq.totalSize = 0 := by
          rw [h.counted, DbufQueue.unread, hnil]
          rfl
        exact absurd hzero hsome
      · rename_i first rest hblocks
        cases ret with
        | wantRead => exact h
        | wouldBlock => exact h.flag true s.defunct
        | fatal => exact h.deadLinkOnWrite
        | sent n =>
            dsimp only
            split
            · exact h.deadLinkOnWrite
            · obtain ⟨q, hq, hnext⟩ := h.take hdead hblocks (Nat.min_le_right n first.size)
              rw [hq]
              dsimp only
              split
              · exact hnext
              · rename_i hmore
                exact ih hnext hdead hmore

theorem Sound.sendQueuedWrite (h : Sound s) (rets : List SendRet) :
    Sound (s.sendQueuedWrite rets) := by
  unfold SendLink.sendQueuedWrite
  split
  · exact h
  · rename_i hopen
    split
    · exact h
    · rename_i hsome
      exact h.writeLoop (Bool.eq_false_iff.mpr fun hd => hopen (.inl hd)) hsome rets

theorem Sound.sendMessage (h : Sound s) (buf : SendMessage) (maxSendq : ℕ) (server : Bool)
    (rets : List SendRet) : Sound (s.sendMessage buf maxSendq server rets) := by
  unfold SendLink.sendMessage
  split
  · exact h.deadLinkOnWrite
  · have hput : Sound { s with sendq := s.sendq.put buf.val, queued := s.queued ++ buf.val } := by
      refine ⟨h.fault, h.counted.put _, h.filled.put buf.property, ?_, fun hd => ?_⟩
      · exact h.isPrefix.trans (List.prefix_append _ _)
      · rw [DbufQueue.unread_put, ← List.append_assoc, ← h.whole hd]
    dsimp only
    split
    · exact hput.sendQueuedWrite rets
    · exact hput

theorem Sound.step (h : Sound s) (e : SendEvent) : Sound (s.step e) := by
  cases e with
  | sendMessage buf maxSendq server rets => exact h.sendMessage buf maxSendq server rets
  | sendQueuedWrite rets => exact h.sendQueuedWrite rets
  | sendqUnblocked => exact h.flag false s.defunct
  | closing => exact h.flag s.sendqBlocked true

/-- The socket takes the messages in order, each byte once, and every delete keeps the queue. -/
theorem run_taken (events : List SendEvent) :
    let s := events.foldl step init
    s.fault = false ∧ s.taken <+: s.queued ∧
      (s.dead = false → s.queued = s.taken ++ s.sendq.unread) ∧
      (∀ b ∈ s.sendq.blocks, b.data ≠ []) ∧
      s.sendq.totalSize = (s.sendq.blocks.map DbufBlock.size).sum ∧
      ∀ (q : DbufQueue) (count : ℕ), (∀ b ∈ q.blocks, b.data ≠ []) →
        q.totalSize = (q.blocks.map DbufBlock.size).sum → count ≤ q.totalSize →
        ∃ q', q.delete count = some q' ∧ (∀ b ∈ q'.blocks, b.data ≠ []) ∧
          q'.totalSize = (q'.blocks.map DbufBlock.size).sum ∧
          q'.unread = q.unread.drop count := by
  have h : Sound (events.foldl step init) := Runs.keeps (fun s e h => h.step e) sound_init events
  refine ⟨h.fault, h.isPrefix, h.whole, h.filled, DbufQueue.counted_iff.mp h.counted, ?_⟩
  intro q count hfilled hcounted hcount
  obtain ⟨q', hq', hc, hf, hunread⟩ :=
    DbufQueue.delete_spec (DbufQueue.counted_iff.mpr hcounted) hfilled hcount
  exact ⟨q', hq', hf, DbufQueue.counted_iff.mp hc, hunread⟩

end SendLink

end Unirc
