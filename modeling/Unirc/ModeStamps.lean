import Unirc.ChannelBurst
import Unirc.ModeLines

/-!
# The timestamp of a MODE command

`ms_tmode` drops a line that is newer than the channel. The first line to servers with TS6 is a
TMODE; the header of a further line is made without the timestamp.
-/

namespace Unirc

open MemberFlag

namespace Server

variable (cfg : Config) (s : Server) (find : Str → Option ℕ) (fromServer : Bool) (a : ℕ)

/-- `ms_tmode`, with the parameters behind the command. -/
def msTmode (parv : List Str) : Server :=
  match s.client? a, parv with
  | some source, ts :: name :: modes :: params =>
      match s.hashFindChannel name with
      | none => s
      | some c =>
          if (s.channel? c).any fun ch => ch.channelts < Decimal.atol ts then s
          else if source.isClient = false ∨ source.services = true then
            (s.setChannelMode cfg find fromServer a source c none modes params).server
          else
            let member := s.findChannelLink a c
            if s.hasMemberFlags member {chflDeopped} then s
            else (s.setChannelMode cfg find fromServer a source c member modes params).server
  | _, _ => s

/-- A server takes a line of mode changes. -/
def takeModeLine (line : Str) : Server :=
  if irccmp (splitLine line).1 "TMODE".toList = false then
    s.msTmode cfg find fromServer a (splitLine line).2
  else if irccmp (splitLine line).1 "MODE".toList = false then
    s.mMode cfg find fromServer a (splitLine line).2
  else s

/-- The line comes with a timestamp that is newer than the channel. -/
def RejectsMode (line : Str) : Prop :=
  irccmp (splitLine line).1 "TMODE".toList = false ∧
    ∃ ts name rest c, (splitLine line).2 = ts :: name :: rest ∧ s.hashFindChannel name = some c ∧
      (s.channel? c).any (fun ch => ch.channelts < Decimal.atol ts) = true

variable {s}

theorem RejectsMode.takeModeLine {line : Str} (h : s.RejectsMode line) :
    s.takeModeLine cfg find fromServer a line = s := by
  obtain ⟨hcommand, ts, name, rest, c, hwords, hc, hnewer⟩ := h
  rw [Server.takeModeLine, if_pos hcommand, hwords]
  unfold msTmode
  cases s.client? a with
  | none => rfl
  | some source =>
      cases rest with
      | nil => rfl
      | cons modes params =>
          simp only [hc]
          rw [if_pos hnewer]

end Server

/-- The line has the form of a TMODE with the timestamp of the channel. -/
def Stamped (ch : Channel) (line : Str) : Prop :=
  (splitLine line).1 = "TMODE".toList ∧
    ∃ rest, (splitLine line).2 = formatULong ch.channelts :: ch.chname.val :: rest

/-- Every line is stamped, and a server refuses all lines, which then do nothing, or none. -/
structure StampedWhole (ch : Channel) (lines : List Str) : Prop where
  stamped : ∀ line ∈ lines, Stamped ch line
  whole : ∀ s : Server,
    (∀ line ∈ lines, s.RejectsMode line ∧
      ∀ cfg find fromServer a, s.takeModeLine cfg find fromServer a line = s) ∨
    ∀ line ∈ lines, ¬ s.RejectsMode line

theorem Stamped.rejectsMode_iff {ch : Channel} {line : Str} (h : Stamped ch line) (s : Server) :
    s.RejectsMode line ↔ ∃ c, s.hashFindChannel ch.chname.val = some c ∧
      (s.channel? c).any (fun our => our.channelts < Decimal.atol (formatULong ch.channelts)) =
        true := by
  obtain ⟨hcommand, rest, hwords⟩ := h
  constructor
  · rintro ⟨-, ts, name, rest', c, hwords', hc, hnewer⟩
    obtain ⟨rfl, hrest⟩ := List.cons.inj (hwords.symm.trans hwords')
    obtain ⟨rfl, -⟩ := List.cons.inj hrest
    exact ⟨c, hc, hnewer⟩
  · rintro ⟨c, hc, hnewer⟩
    refine ⟨?_, _, _, rest, c, hwords, hc, hnewer⟩
    rw [hcommand]
    decide

theorem stampedWhole_iff {ch : Channel} {lines : List Str} :
    StampedWhole ch lines ↔ ∀ line ∈ lines, Stamped ch line := by
  refine ⟨StampedWhole.stamped, fun h => ⟨h, fun s => ?_⟩⟩
  by_cases hs : ∃ c, s.hashFindChannel ch.chname.val = some c ∧
      (s.channel? c).any (fun our => our.channelts < Decimal.atol (formatULong ch.channelts)) = true
  · refine Or.inl fun line hline => ?_
    have hrejects := ((h line hline).rejectsMode_iff s).mpr hs
    exact ⟨hrejects, fun cfg find fromServer a => hrejects.takeModeLine cfg find fromServer a⟩
  · exact Or.inr fun line hline => mt ((h line hline).rejectsMode_iff s).mp hs

namespace ChangeLine

variable {l : ChangeLine} {later : Str}

/-- No change asks for a new line. -/
def OneLine (l : ChangeLine) (rest : List SentChange) : Prop :=
  ∀ before ch after, rest = before ++ ch :: after → ¬ Full ⟨l.start, l.changes ++ before⟩ ch

theorem oneLine_cons {ch : SentChange} {rest : List SentChange} :
    l.OneLine (ch :: rest) ↔ ¬ l.Full ch ∧ (l.add ch).OneLine rest := by
  constructor
  · intro h
    refine ⟨fun hfull => h [] ch rest rfl ?_, fun before d after heq => ?_⟩
    · rwa [List.append_nil]
    · have hd := h (ch :: before) d after (congrArg (ch :: ·) heq)
      rwa [List.append_cons] at hd
  · rintro ⟨hfull, hrest⟩ before d after heq
    cases before with
    | nil =>
        obtain ⟨rfl, -⟩ := List.cons.inj heq
        rwa [List.append_nil]
    | cons b before =>
        obtain ⟨rfl, hafter⟩ := List.cons.inj heq
        have hd := hrest before d after hafter
        rwa [add, ← List.append_cons] at hd

theorem sentLines_of_oneLine {rest : List SentChange} (h : l.OneLine rest) :
    l.sentLines later rest = last ⟨l.start, l.changes ++ rest⟩ := by
  induction rest generalizing l with
  | nil => rw [sentLines, List.append_nil]
  | cons ch rest ih =>
      obtain ⟨hfull, hrest⟩ := oneLine_cons.mp h
      rw [sentLines, if_neg hfull, ih hrest, add, ← List.append_cons]

theorem start_isPrefix (l : ChangeLine) (text : Str) : l.start <+: l.modebuf ++ text :=
  (List.prefix_append ..).trans (List.prefix_append ..)

theorem start_isPrefix_last {line : Str} (h : line ∈ l.last) : l.start <+: line := by
  unfold last at h
  split at h
  · exact absurd h List.not_mem_nil
  · exact List.mem_singleton.mp h ▸ l.start_isPrefix _

/-- A line with a change on it is sent. -/
theorem exists_mem_sentLines {rest : List SentChange} (h : l.changes ≠ []) :
    ∃ line ∈ l.sentLines later rest, l.start <+: line := by
  induction rest generalizing l with
  | nil =>
      rw [sentLines, last, if_neg h]
      exact ⟨_, List.mem_singleton_self _, l.start_isPrefix _⟩
  | cons ch rest ih =>
      rw [sentLines]
      split
      · refine ⟨l.modebuf ++ ' ' :: l.parabuf, List.mem_append_left _ ?_, l.start_isPrefix _⟩
        rw [sent, if_neg h]
        exact List.mem_singleton_self _
      · exact ih (add_changes_ne_nil ch)

theorem exists_later_of_not_oneLine {rest : List SentChange} (h : ¬ l.OneLine rest) :
    ∃ line ∈ l.sentLines later rest, later <+: line := by
  induction rest generalizing l with
  | nil => exact absurd (fun before ch after heq => by simp at heq) h
  | cons ch rest ih =>
      rw [sentLines]
      split
      · obtain ⟨line, hline, hstart⟩ := @exists_mem_sentLines ⟨later, [ch]⟩ later rest
          (List.cons_ne_nil _ _)
        exact ⟨line, List.mem_append_right _ hline, hstart⟩
      · rename_i hfull
        exact ih fun hrest => h (oneLine_cons.mpr ⟨hfull, hrest⟩)

theorem exists_line (start : Str) {sent : List SentChange} (hsent : sent ≠ []) :
    ∃ line ∈ sentLines start ⟨start, []⟩ sent, start <+: line := by
  by_cases h : OneLine ⟨start, []⟩ sent
  · rw [sentLines_of_oneLine h, List.nil_append, last, if_neg hsent]
    exact ⟨_, List.mem_singleton_self _, start_isPrefix ⟨start, sent⟩ _⟩
  · exact exists_later_of_not_oneLine h

end ChangeLine

section Lines

variable {source : Client} {ch : Channel}

/-- The header of the first line for servers with TS6. -/
def tmodeStart (source : Client) (ch : Channel) : Str :=
  ':' :: (source.id.val ++ (" TMODE ".toList ++ (formatULong ch.channelts ++
    ' ' :: (ch.chname.val ++ [' ']))))

theorem splitLine_modeStart {origin : Str} (horigin : ' ' ∉ origin) (ch : Channel) (rest : Str) :
    splitLine (modeStart origin ch ++ rest) =
      ("MODE".toList, stringToArray (ch.chname.val ++ ' ' :: rest)) := by
  have hline : modeStart origin ch ++ rest =
      ':' :: (origin ++ ' ' :: ("MODE".toList ++ ' ' :: (ch.chname.val ++ ' ' :: rest))) := by
    simp [modeStart]
  rw [hline, splitLine_command horigin (by decide) (by decide)]

theorem splitLine_tmodeStart (hid : ' ' ∉ source.id.val) (ch : Channel) (rest : Str) :
    splitLine (tmodeStart source ch ++ rest) =
      ("TMODE".toList, stringToArray (formatULong ch.channelts ++
        ' ' :: (ch.chname.val ++ ' ' :: rest))) := by
  have hline : tmodeStart source ch ++ rest =
      ':' :: (source.id.val ++ ' ' :: ("TMODE".toList ++ ' ' ::
        (formatULong ch.channelts ++ ' ' :: (ch.chname.val ++ ' ' :: rest)))) := by
    simp [tmodeStart]
  rw [hline, splitLine_command hid (by decide) (by decide)]

theorem stamped_of_tmodeStart (hid : ' ' ∉ source.id.val) (hch : IsWord ch.chname.val) {line : Str}
    (h : tmodeStart source ch <+: line) : Stamped ch line := by
  obtain ⟨rest, rfl⟩ := h
  rw [Stamped, splitLine_tmodeStart hid, stringToArray, splitArgs_word (isWord_formatULong _),
    splitArgs_word hch]
  exact ⟨rfl, _, rfl⟩

theorem not_stamped_of_modeStart {origin : Str} (horigin : ' ' ∉ origin) {line : Str}
    (h : modeStart origin ch <+: line) : ¬ Stamped ch line := by
  obtain ⟨rest, rfl⟩ := h
  rw [Stamped, splitLine_modeStart horigin]
  rintro ⟨hcommand, -⟩
  exact absurd hcommand (show "MODE".toList ≠ "TMODE".toList by decide)

theorem lines_sendCapModeChanges (cap : ChCapCombo) (source : Client) (ch : Channel) (m : Mode)
    (changes : List ModeChange) : (sendCapModeChanges cap source ch m changes).lines =
      if cap.ts6 = true ∧ source.id.val ≠ [] then
        ChangeLine.sentLines (modeStart source.id.val ch) ⟨tmodeStart source ch, []⟩
          (changes.filterMap (·.forServers cap m))
      else ChangeLine.sentLines (modeStart source.name.val ch) ⟨modeStart source.name.val ch, []⟩
        (changes.filterMap (·.forServers cap m)) := by
  unfold sendCapModeChanges
  rw [SendState.run_lines _ _ _ (fun h => absurd h Bool.false_ne_true)]
  by_cases h : cap.ts6 = true ∧ source.id.val ≠ []
  · have hb : (cap.ts6 && decide (source.id.val ≠ [])) = true := by simp [h.1, h.2]
    simp only [hb, if_true, if_pos h, tmodeStart]
  · have hb : ¬ (cap.ts6 && decide (source.id.val ≠ [])) = true := by
      simpa using h
    simp only [if_neg hb, if_neg h]

end Lines

section Bans

def alice : Client :=
  { Client.make "alice".toList true true with id := Buf.strlcpy "1ABAAAAAA".toList }

def fiveBans : List ModeChange :=
  ["a!*@*", "b!*@*", "c!*@*", "d!*@*", "e!*@*"].map fun mask =>
    ⟨some 'b', .add, none, .allMembers, none, some (.text mask.toList)⟩

def banned : Channel := ⟨Buf.strlcpy "#c".toList, 100, Mode.zero, [], [], []⟩

end Bans

end Unirc
