import Unirc.Packing
import Unirc.RemoteJoin
import Unirc.SjoinHandler

/-!
# The members and masks of a burst

`send_members` and `send_mode_list` of `channel.c`. Both write items behind the start of a
line as long as there is room, send the line and begin again behind the same start.
-/

namespace Unirc

open MemberFlag

/-- The flags of `get_member_status` with their prefixes and letters. -/
def memberMarks : List (MemberFlag × Char × Char) :=
  [(chflOwner, '~', 'q'), (chflProtected, '&', 'a'), (chflChanop, '@', 'o'),
    (chflHalfop, '%', 'h'), (chflVoice, '+', 'v')]

def getMemberStatus (flags : MemberFlags) (combine modes : Bool) : Str :=
  let marks := (memberMarks.filter fun p => p.1 ∈ flags).map fun p =>
    if modes then p.2.2 else p.2.1
  if combine then marks else marks.take 1

/-- What a member is called on a link: `ID(ms->client_p)` or its name. -/
def Client.sentName (a : Client) (ts6 : Bool) : Str := if ts6 then a.idOrName else a.name.val

/-- The room that `send_members` reckons with for a member, and what it writes. -/
structure MemberItem where
  tlen : ℕ
  word : Str

def memberItem (ts6 : Bool) (a : Client) (flags : MemberFlags) : MemberItem where
  tlen := (a.sentName ts6).length + 1 + memberMarks.countP fun p => p.1 ∈ flags
  word := getMemberStatus flags true false ++ a.sentName ts6

/-- `":%s SJOIN %lu %s %s %s:"` -/
def membersStart (me : Str) (ch : Channel) : Str :=
  ':' :: (me ++ " SJOIN ".toList ++ formatULong ch.channelts ++ ' ' :: (ch.chname.val ++
    ' ' :: ((channelModes ch.mode true).1 ++ ' ' :: ((channelModes ch.mode true).2 ++ [':']))))

/-- The loop of `send_members`; the second text is the buffer up to the cursor. -/
def membersLoop (start : Str) : Str → List MemberItem → List Str
  | t, [] => [t.dropLast]
  | t, m :: ms =>
      if IRCD_BUFSIZE - 1 < t.length + m.tlen then
        t.dropLast :: membersLoop start (start ++ (m.word ++ [' '])) ms
      else membersLoop start (t ++ (m.word ++ [' '])) ms

def sendMembers (start : Str) (members : List MemberItem) : List Str :=
  if members = [] then [start] else membersLoop start start members

/-- The variables of `send_mode_list`: `cur_len`, the letters up to `mp`, `pbuf` up to `pp`
and `count`. -/
structure ModeListBuf where
  curLen : ℕ
  letters : Str
  pbuf : Str
  count : ℕ

/-- `ts5` as a number. -/
def ts5Len (ts6 : Bool) : ℕ := if ts6 then 0 else 1

/-- `":%s MODE %s +"` or `":%s BMASK %lu %s %c :"` -/
def modeListStart (ts6 : Bool) (meName meId : Str) (ch : Channel) (flag : Char) : Str :=
  if ts6 then
    ':' :: (meId ++ " BMASK ".toList ++ formatULong ch.channelts ++ ' ' :: (ch.chname.val ++
      [' ', flag, ' ', ':']))
  else ':' :: (meName ++ " MODE ".toList ++ ch.chname.val ++ [' ', '+'])

namespace ModeListBuf

def init (ts6 : Bool) (start : Str) : ModeListBuf := ⟨start.length + ts5Len ts6, [], [], 0⟩

/-- The line that is sent. -/
def line (ts6 : Bool) (start : Str) (b : ModeListBuf) : Str :=
  start ++ b.letters ++ (if ts6 then [] else [' ']) ++ b.pbuf.dropLast

/-- `banptr->len + 3 + ts5` -/
def tlen (ts6 : Bool) (ban : Ban) : ℕ :=
  ban.len + 3 + ts5Len ts6

/-- The buffer is sent before a ban is added. -/
def Full (ts6 : Bool) (b : ModeListBuf) (ban : Ban) : Prop :=
  IRCD_BUFSIZE - 2 < b.curLen + (tlen ts6 ban - 1) ∨
    (ts6 = false ∧ (MAXMODEPARAMS ≤ b.count ∨ MODEBUFLEN ≤ b.pbuf.length))

instance (ts6 : Bool) (b : ModeListBuf) (ban : Ban) : Decidable (Full ts6 b ban) := by
  unfold Full
  infer_instance

def add (ts6 : Bool) (flag : Char) (b : ModeListBuf) (ban : Ban) : ModeListBuf where
  curLen := b.curLen + tlen ts6 ban
  letters := if ts6 then b.letters else b.letters ++ [flag]
  pbuf := b.pbuf ++ (ban.text ++ [' '])
  count := b.count + 1

end ModeListBuf

open ModeListBuf in
/-- The loop of `send_mode_list`. -/
def modeListLoop (ts6 : Bool) (start : Str) (flag : Char) : ModeListBuf → List Ban → List Str
  | b, [] => [b.line ts6 start]
  | b, ban :: bans =>
      if b.Full ts6 ban then
        b.line ts6 start :: modeListLoop ts6 start flag ((init ts6 start).add ts6 flag ban) bans
      else modeListLoop ts6 start flag (b.add ts6 flag ban) bans

def sendModeList (ts6 : Bool) (start : Str) (flag : Char) (bans : List Ban) : List Str :=
  if bans = [] then [] else modeListLoop ts6 start flag (ModeListBuf.init ts6 start) bans

section Members

theorem length_getMemberStatus (flags : MemberFlags) (modes : Bool) :
    (getMemberStatus flags true modes).length = memberMarks.countP fun p => p.1 ∈ flags := by
  rw [getMemberStatus, if_pos rfl, List.length_map, List.countP_eq_length_filter]

theorem tlen_memberItem (ts6 : Bool) (a : Client) (flags : MemberFlags) :
    (memberItem ts6 a flags).tlen = (memberItem ts6 a flags).word.length + 1 := by
  simp only [memberItem, List.length_append, length_getMemberStatus]
  omega

/-- The words of members, each with a blank behind it. -/
def membersText (ms : List MemberItem) : Str := (ms.map MemberItem.word).flatMap (· ++ [' '])

theorem membersText_append (ms : List MemberItem) (m : MemberItem) :
    membersText (ms ++ [m]) = membersText ms ++ (m.word ++ [' ']) := by
  simp [membersText]

theorem membersText_ne_nil {ms : List MemberItem} (h : ms ≠ []) : membersText ms ≠ [] := by
  obtain ⟨m, ms, rfl⟩ := List.exists_cons_of_ne_nil h
  simp [membersText]

/-- The room test of `send_members`. -/
def memberFits (start : Str) (ms : List MemberItem) (m : MemberItem) : Prop :=
  ¬ IRCD_BUFSIZE - 1 < (start ++ membersText ms).length + m.tlen

instance (start : Str) (ms : List MemberItem) (m : MemberItem) :
    Decidable (memberFits start ms m) := by
  unfold memberFits
  infer_instance

/-- The line of a group of members. -/
def membersLine (start : Str) (ms : List MemberItem) : Str :=
  start ++ List.intercalate [' '] (ms.map MemberItem.word)

theorem dropLast_membersText (start : Str) {ms : List MemberItem} (h : ms ≠ []) :
    (start ++ membersText ms).dropLast = membersLine start ms := by
  rw [List.dropLast_append_of_ne_nil (membersText_ne_nil h), membersText,
    dropLast_flatMap_append, membersLine]

theorem membersLoop_eq_pack (start : Str) {cur : List MemberItem} (hcur : cur ≠ [])
    (ms : List MemberItem) : membersLoop start (start ++ membersText cur) ms =
      (Packing.pack (memberFits start) cur ms).map (membersLine start) := by
  induction ms generalizing cur with
  | nil => rw [membersLoop, dropLast_membersText start hcur]; rfl
  | cons m ms ih =>
      have hone : membersText [m] = m.word ++ [' '] := by simp [membersText]
      rw [membersLoop, Packing.pack]
      by_cases hfit : memberFits start cur m
      · rw [if_neg hfit, if_pos hfit, List.append_assoc, ← membersText_append,
          ih (by simp)]
      · rw [if_pos (not_not.mp hfit), if_neg hfit, dropLast_membersText start hcur,
          ← hone, ih (List.cons_ne_nil m []), List.map_cons]

/-- With room for every single member the lines are those of the packed groups. -/
theorem sendMembers_eq_pack {start : Str} {m : MemberItem} (ms : List MemberItem)
    (hroom : start.length + m.tlen ≤ IRCD_BUFSIZE - 1) :
    sendMembers start (m :: ms) =
      (Packing.pack (memberFits start) [m] ms).map (membersLine start) := by
  have hone : membersText [m] = m.word ++ [' '] := by simp [membersText]
  rw [sendMembers, if_neg (List.cons_ne_nil m ms), membersLoop, if_neg (by omega), ← hone,
    membersLoop_eq_pack start (List.cons_ne_nil m [])]

theorem length_membersLine {start : Str} {ms : List MemberItem}
    (h : (start ++ membersText ms).length ≤ IRCD_BUFSIZE - 1) (hne : ms ≠ []) :
    (membersLine start ms).length ≤ IRCD_BUFSIZE - 2 := by
  rw [← dropLast_membersText start hne, List.length_dropLast]
  omega

theorem length_membersLine_of_pack {start : Str} {m : MemberItem} {ms : List MemberItem}
    (hroom : ∀ x ∈ m :: ms, x.tlen = x.word.length + 1 ∧
      start.length + x.tlen ≤ IRCD_BUFSIZE - 1) :
    ∀ g ∈ Packing.pack (memberFits start) [m] ms,
      (membersLine start g).length ≤ IRCD_BUFSIZE - 2 := by
  have hsingle : ∀ x ∈ m :: ms, (start ++ membersText [x]).length ≤ IRCD_BUFSIZE - 1 := by
    intro x hx
    have := hroom x hx
    simp only [membersText, List.map_singleton, List.flatMap_singleton, List.length_append,
      List.length_singleton]
    omega
  have hfill : ∀ g ∈ Packing.pack (memberFits start) [m] ms,
      (start ++ membersText g).length ≤ IRCD_BUFSIZE - 1 := by
    refine Packing.forall_pack (hsingle m List.mem_cons_self)
      (fun x hx => hsingle x (List.mem_cons_of_mem m hx)) fun g x hx _ hfit => ?_
    have htlen := (hroom x (List.mem_cons_of_mem m hx)).1
    rw [memberFits, not_lt] at hfit
    have hx' : (x.word ++ [' ']).length = x.word.length + 1 := List.length_append
    rw [membersText_append, ← List.append_assoc, List.length_append, hx']
    omega
  exact fun g hg => length_membersLine (hfill g hg)
    (Packing.pack_ne_nil (List.cons_ne_nil m []) g hg)

end Members

namespace ModeListBuf

variable {ts6 : Bool} {start : Str} {flag : Char}

/-- The buffer after a group of bans. -/
def ofBans (ts6 : Bool) (start : Str) (flag : Char) (bans : List Ban) : ModeListBuf :=
  bans.foldl (add ts6 flag) (init ts6 start)

theorem add_ofBans (bans : List Ban) (ban : Ban) :
    (ofBans ts6 start flag bans).add ts6 flag ban = ofBans ts6 start flag (bans ++ [ban]) := by
  rw [ofBans, ofBans, List.foldl_append]
  rfl

/-- The room tests of `send_mode_list`. -/
def fits (ts6 : Bool) (start : Str) (flag : Char) (bans : List Ban) (ban : Ban) : Prop :=
  ¬ (ofBans ts6 start flag bans).Full ts6 ban

instance (bans : List Ban) (ban : Ban) : Decidable (fits ts6 start flag bans ban) := by
  unfold fits
  infer_instance

theorem modeListLoop_eq_pack (cur bans : List Ban) :
    modeListLoop ts6 start flag (ofBans ts6 start flag cur) bans =
      (Packing.pack (fits ts6 start flag) cur bans).map fun g =>
        (ofBans ts6 start flag g).line ts6 start := by
  induction bans generalizing cur with
  | nil => rfl
  | cons ban bans ih =>
      rw [modeListLoop, Packing.pack]
      by_cases hfit : fits ts6 start flag cur ban
      · rw [if_neg hfit, if_pos hfit, add_ofBans, ih]
      · rw [if_pos (not_not.mp hfit), if_neg hfit, List.map_cons]
        exact congrArg _ (ih [ban])

theorem sendModeList_eq_pack {ban : Ban} (bans : List Ban)
    (hroom : start.length + ts5Len ts6 + tlen ts6 ban ≤ IRCD_BUFSIZE - 1) :
    sendModeList ts6 start flag (ban :: bans) =
      (Packing.pack (fits ts6 start flag) [ban] bans).map fun g =>
        (ofBans ts6 start flag g).line ts6 start := by
  have hpos : 0 < tlen ts6 ban := by unfold tlen; omega
  have hnot : ¬ (init ts6 start).Full ts6 ban := by
    rintro (h | ⟨-, h | h⟩)
    · simp only [init, IRCD_BUFSIZE] at h hroom
      omega
    · exact absurd h (show ¬ 4 ≤ 0 by decide)
    · exact absurd h (show ¬ 200 ≤ 0 by decide)
  rw [sendModeList, if_neg (List.cons_ne_nil ban bans), modeListLoop, if_neg hnot]
  exact modeListLoop_eq_pack [ban] bans

theorem length_ban_text (ts6 : Bool) {ban : Ban} (h : ban.Measured) :
    ban.text.length + 1 + ts5Len ts6 = tlen ts6 ban := by
  rw [← h.length_text, tlen]

/-- `cur_len` is the length of the line with the last blank. -/
theorem curLen_ofBans {bans : List Ban} (hlen : ∀ x ∈ bans, x.Measured) :
    (ofBans ts6 start flag bans).curLen =
      start.length + (ofBans ts6 start flag bans).letters.length + ts5Len ts6 +
        (ofBans ts6 start flag bans).pbuf.length := by
  induction bans using List.reverseRecOn with
  | nil => simp [ofBans, init]
  | append_singleton bans ban ih =>
      have htext := length_ban_text ts6 (hlen ban (by simp))
      have ih := ih fun x hx => hlen x (List.mem_append_left [ban] hx)
      rw [← add_ofBans]
      simp only [add, List.length_append, List.length_singleton]
      split
      · simp only [ts5Len, if_pos ‹ts6 = true›] at ih htext ⊢
        omega
      · simp only [ts5Len, if_neg ‹¬ ts6 = true›, List.length_append,
          List.length_singleton] at ih htext ⊢
        omega

theorem pbuf_ofBans (bans : List Ban) :
    (ofBans ts6 start flag bans).pbuf = (bans.map Ban.text).flatMap (· ++ [' ']) := by
  induction bans using List.reverseRecOn with
  | nil => rfl
  | append_singleton bans ban ih =>
      rw [← add_ofBans]
      simp [add, ih]

theorem length_line {bans : List Ban} (hne : bans ≠ []) (hlen : ∀ x ∈ bans, x.Measured) :
    ((ofBans ts6 start flag bans).line ts6 start).length + 1 =
      (ofBans ts6 start flag bans).curLen := by
  obtain ⟨ban, bans, rfl⟩ := List.exists_cons_of_ne_nil hne
  have hpos : 0 < (ofBans ts6 start flag (ban :: bans)).pbuf.length := by
    rw [pbuf_ofBans, List.map_cons, List.flatMap_cons]
    simp only [List.length_append, List.length_singleton]
    omega
  have hsep : (if ts6 then [] else [' '] : Str).length = ts5Len ts6 := by
    cases ts6 <;> rfl
  rw [curLen_ofBans hlen, line]
  simp only [List.length_append, List.length_dropLast, hsep]
  omega

theorem length_line_of_pack {ban : Ban} {bans : List Ban}
    (hlen : ∀ x ∈ ban :: bans, x.Measured)
    (hroom : ∀ x ∈ ban :: bans, start.length + ts5Len ts6 + tlen ts6 x ≤ IRCD_BUFSIZE - 1) :
    ∀ g ∈ Packing.pack (fits ts6 start flag) [ban] bans,
      ((ofBans ts6 start flag g).line ts6 start).length ≤ IRCD_BUFSIZE - 2 := by
  have hfill : ∀ g ∈ Packing.pack (fits ts6 start flag) [ban] bans,
      (ofBans ts6 start flag g).curLen ≤ IRCD_BUFSIZE - 1 := by
    refine Packing.forall_pack (hroom ban List.mem_cons_self)
      (fun x hx => hroom x (List.mem_cons_of_mem ban hx)) fun g x _ _ hfit => ?_
    have hfits := not_lt.mp (not_or.mp hfit).1
    rw [← add_ofBans, add]
    simp only [IRCD_BUFSIZE] at hfits ⊢
    omega
  intro g hg
  have hcur := hfill g hg
  have hline : _ = (ofBans ts6 start flag g).curLen := length_line
    (Packing.pack_ne_nil (List.cons_ne_nil ban []) g hg) fun x hx => hlen x (by
      have hmem : x ∈ (Packing.pack (fits ts6 start flag) [ban] bans).flatten :=
        List.mem_flatten.mpr ⟨g, hg, hx⟩
      rwa [Packing.flatten_pack] at hmem)
  simp only [IRCD_BUFSIZE] at hcur ⊢
  omega

/-- A line of BMASK is its start and the masks. -/
theorem line_ofBans_ts6 (start : Str) (flag : Char) (bans : List Ban) :
    (ofBans true start flag bans).line true start =
      start ++ List.intercalate [' '] (bans.map Ban.text) := by
  have hletters : (ofBans true start flag bans).letters = [] := by
    induction bans using List.reverseRecOn with
    | nil => rfl
    | append_singleton bans ban ih =>
        rw [← add_ofBans]
        exact ih
  rw [line, hletters, pbuf_ofBans, dropLast_flatMap_append]
  simp

end ModeListBuf

end Unirc
