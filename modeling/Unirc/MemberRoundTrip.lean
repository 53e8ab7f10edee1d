import Unirc.Bmask
import Unirc.ChannelBurst
import Unirc.MemberBurst

/-!
# The burst of members and masks read back

The prefix-and-nick loop of `ms_sjoin` gives every member of a burst its status back, on a
server that knows the users and makes the channel with the first line. The masks come back
through BMASK when each has a nick part that does not start with a colon.
-/

namespace Unirc

open MemberFlag

section Prefixes

theorem readPrefixes_marks {name : Str} (hname : ∀ c ∈ name.head?, nickPrefixes.lookup c = none)
    {marks : List (MemberFlag × Char × Char)} (h : ∀ p ∈ marks, p ∈ memberMarks) :
    readPrefixes (marks.map (fun p => p.2.1) ++ name) = ((marks.map Prod.fst).toFinset, name) := by
  have hlookup : ∀ p ∈ memberMarks, nickPrefixes.lookup p.2.1 = some p.1 := by decide
  induction marks with
  | nil =>
      cases name with
      | nil => rfl
      | cons c cs => simp [readPrefixes, hname c rfl]
  | cons p marks ih =>
      have hrest := ih fun q hq => h q (List.mem_cons_of_mem p hq)
      rw [List.map_cons, List.cons_append, readPrefixes, hlookup p (h p List.mem_cons_self)]
      simp [hrest]

theorem toFinset_marks (flags : MemberFlags) :
    ((memberMarks.filter fun p => p.1 ∈ flags).map Prod.fst).toFinset = flags ∩ statusFlags := by
  have hmarks : ∀ f, (∃ p ∈ memberMarks, p.1 = f) ↔ f ∈ statusFlags := by
    intro f
    cases f <;> decide
  ext f
  simp only [List.mem_toFinset, List.mem_map, List.mem_filter, decide_eq_true_eq,
    Finset.mem_inter]
  rw [← hmarks]
  constructor
  · rintro ⟨p, ⟨hp, hflags⟩, rfl⟩
    exact ⟨hflags, p, hp, rfl⟩
  · rintro ⟨hflags, p, hp, rfl⟩
    exact ⟨p, ⟨hp, hflags⟩, rfl⟩

/-- The loop over the prefixes reads back what `get_member_status` wrote. -/
theorem readPrefixes_getMemberStatus {name : Str}
    (hname : ∀ c ∈ name.head?, nickPrefixes.lookup c = none) (flags : MemberFlags) :
    readPrefixes (getMemberStatus flags true false ++ name) = (flags ∩ statusFlags, name) := by
  have hmarks : readPrefixes ((memberMarks.filter fun p => p.1 ∈ flags).map (fun p => p.2.1) ++
      name) = _ := readPrefixes_marks hname fun p hp => (List.mem_filter.mp hp).1
  rw [toFinset_marks] at hmarks
  simpa [getMemberStatus] using hmarks

theorem nickWords_intercalate {words : List Str} (h : ∀ w ∈ words, w ≠ [] ∧ ' ' ∉ w)
    (hne : words ≠ []) : nickWords (List.intercalate [' '] words) = words := by
  rw [nickWords, List.splitOn_intercalate ' ' (fun w hw => (h w hw).2) hne]
  exact List.filter_eq_self.mpr fun w hw => by simpa using (h w hw).1

end Prefixes

/-- A name that a burst can carry: no blank, no prefix in front, and room for it. -/
structure BurstName (name : Str) : Prop where
  ne_nil : name ≠ []
  blank : ' ' ∉ name
  head : ∀ c ∈ name.head?, nickPrefixes.lookup c = none
  length : name.length < NICKLEN

namespace Server

/-- The members of a channel with their records and flags. -/
def burstMembers (s : Server) (c : ℕ) : List (ℕ × Client × MemberFlags) :=
  (s.members c).filterMap fun m => (s.graph.links m).bind fun r =>
    (s.client? r.left).map fun a => (r.left, a, r.label)

/-- `ms_sjoin` behind its parameters. -/
def sjoinRead (cfg : Config) (s : Server) (now : ℤ) (find : Str → Option ℕ) (link : ℕ)
    (source : Client) (h : SjoinHeader) : Server :=
  let (s', c, isnew) := s.findOrMake now h.chname
  match s'.channel? c with
  | some ch => s'.msSjoinMerge cfg find link source h isnew c ch
  | none => s

theorem msSjoin_eq_sjoinRead {cfg : Config} {s : Server} {now : ℤ} {find : Str → Option ℕ}
    {link a : ℕ} {source : Client} {parv : List Str} {h : SjoinHeader}
    (hs : s.client? a = some source) (hserver : source.isClient = false)
    (hparse : parseSjoin parv = some h) :
    s.msSjoin cfg now find link a parv = s.sjoinRead cfg now find link source h := by
  rw [msSjoin, hs, hparse]
  simp only [hserver, Bool.false_eq_true, if_false]
  rfl

section Roster

variable {s : Server} {pending : Option ℕ} {c : ℕ}

theorem statusRoster_eq_burstMembers (h : s.Inv pending) (c : ℕ) : s.statusRoster c =
    (s.burstMembers c).map fun x => (x.1, x.2.2 ∩ statusFlags) := by
  rw [statusRoster, burstMembers, List.map_filterMap]
  refine List.filterMap_congr fun m _ => ?_
  cases hm : s.graph.links m with
  | none => rfl
  | some r =>
      have hperson := h.person hm
      cases ha : s.client? r.left with
      | none => rw [ha] at hperson; cases hperson
      | some a => simp [ha]

/-- A user is a member of a channel once. -/
theorem nodup_burstMembers (h : s.Inv pending) (c : ℕ) :
    ((s.burstMembers c).map Prod.fst).Nodup := by
  rw [burstMembers, List.map_filterMap, List.Nodup, List.pairwise_filterMap]
  have hright : ∀ {m r}, m ∈ s.members c → s.graph.links m = some r → r.right = c := by
    intro m r hm hr
    cases hl : s.graph.listed .right c with
    | none => simp [members, hl] at hm
    | some l =>
        obtain ⟨r', hr', hat⟩ := h.wf.link_at hl (by simpa [members, hl] using hm)
        rw [hr] at hr'
        cases hr'
        exact hat
  have hnodup : (s.members c).Nodup := by
    cases hl : s.graph.listed .right c with
    | none => simp [members, hl]
    | some l => simpa [members, hl] using h.wf.nodup hl
  refine List.Pairwise.imp_of_mem (fun {m m'} hm hm' hne x hx x' hx' heq => hne ?_) hnodup
  obtain ⟨y, hy, rfl⟩ := Option.map_eq_some_iff.mp hx
  obtain ⟨y', hy', rfl⟩ := Option.map_eq_some_iff.mp hx'
  obtain ⟨r, hr, hz⟩ := Option.bind_eq_some_iff.mp hy
  obtain ⟨r', hr', hz'⟩ := Option.bind_eq_some_iff.mp hy'
  obtain ⟨a, -, rfl⟩ := Option.map_eq_some_iff.mp hz
  obtain ⟨a', -, rfl⟩ := Option.map_eq_some_iff.mp hz'
  exact h.simple m m' r r' hr hr' heq ((hright hm hr).trans (hright hm' hr').symm)

theorem not_isMember_of_not_mem (h : s.Inv pending) {a : ℕ}
    (ha : a ∉ (s.statusRoster c).map Prod.fst) : s.isMember a c = false := by
  rw [isMember, findChannelLink]
  split
  · cases hb : s.graph.between a c with
    | none => rfl
    | some m =>
        refine absurd ?_ ha
        obtain ⟨r, hr, rfl, rfl⟩ := h.wf.between_eq_some hb
        obtain ⟨l, hl, hm⟩ := h.wf.listed_at hr .right
        refine List.mem_map.mpr ⟨(r.left, r.label ∩ statusFlags), ?_, rfl⟩
        refine List.mem_filterMap.mpr ⟨m, ?_, by simp [hr]⟩
        have hl' : s.graph.listed .right r.right = some l := hl
        simpa [members, hl'] using hm
  · rfl

theorem statusRoster_addUserToChannel (h : s.Inv pending)
    (hc : (s.graph.listed .right c).isSome = true) (a : ℕ) (flags : MemberFlags) :
    (s.addUserToChannel c a flags).statusRoster c =
      (a, flags ∩ statusFlags) :: s.statusRoster c := by
  obtain ⟨l, hl⟩ := Option.isSome_iff_exists.mp hc
  have hmembers : (s.addUserToChannel c a flags).members c = s.graph.nextLink :: l := by
    simp [members, addUserToChannel, LinkGraph.listed_link, Side.pick, hl]
  have hfresh := h.wf.nextLink_not_mem hl
  rw [statusRoster, hmembers, statusRoster, List.filterMap_cons]
  simp only [addUserToChannel, LinkGraph.links_link, if_true, Option.map_some]
  refine congrArg _ ?_
  rw [members, hl]
  refine List.filterMap_congr fun m hm => ?_
  have hne : m ≠ s.graph.nextLink := by
    rintro rfl
    exact hfresh hm
  rw [if_neg hne]

end Roster

/-- A member of a burst as the receiver sees it. -/
structure Arrival where
  word : Str
  client : ℕ
  flags : MemberFlags

/-- What the receiver of a word knows: the user behind the link that it names. -/
structure Arrival.Known (s : Server) (find : Str → Option ℕ) (link : ℕ) (x : Arrival) : Prop where
  ne_nil : x.word ≠ []
  blank : ' ' ∉ x.word
  read : ∃ name, readPrefixes x.word = (x.flags, name) ∧ find name = some x.client
  person : (s.client? x.client).any (fun who => who.from_ == link && who.isClient) = true
  status : x.flags ∩ statusFlags = x.flags

/-- The channel while the lines of a burst arrive. -/
structure Joined (s₀ s : Server) (pending : Option ℕ) (d : ℕ) (ts : ℤ) (name : Buf (CHANNELLEN + 1))
    (got : List (ℕ × MemberFlags)) : Prop where
  inv : s.Inv pending
  pending_eq : ∀ e, pending = some e → e = d
  client : ∀ a, s.client? a = s₀.client? a
  found : s.hashFindChannel name.val = some d
  channel : ∃ ch, s.channel? d = some ch ∧ ch.chname = name ∧ ch.channelts = ts ∧
    ∀ t, ch.bans t = []
  roster : s.statusRoster d = got

namespace Joined

variable {s₀ s : Server} {pending : Option ℕ} {d : ℕ} {ts : ℤ} {name : Buf (CHANNELLEN + 1)}
  {got : List (ℕ × MemberFlags)} {find : Str → Option ℕ} {link : ℕ}

theorem listed (h : Joined s₀ s pending d ts name got) :
    (s.graph.listed .right d).isSome = true := by
  obtain ⟨ch, hch, -⟩ := h.channel
  rw [← isSome_channel?, hch]
  rfl

/-- A line is a change of the mode and of the time, and its words. -/
theorem updChannel (h : Joined s₀ s pending d ts name got) {f : Channel → Channel} {ts' : ℤ}
    (hname : ∀ ch, (f ch).chname = ch.chname) (hts : ∀ ch, (f ch).channelts = ts')
    (hbans : ∀ ch t, (f ch).bans t = ch.bans t) :
    Joined s₀ (s.updChannel d f) pending d ts' name got where
  inv := h.inv.relabel (Relabels.updChannel s d f)
  pending_eq := h.pending_eq
  client := h.client
  found := (SameNames.updChannel s d hname).hashFindChannel _ |>.trans h.found
  channel := by
    obtain ⟨ch, hch, hn, -, hb⟩ := h.channel
    refine ⟨f ch, by rw [channel?_updChannel, if_pos rfl, hch]; rfl, (hname ch).trans hn, hts ch,
      fun t => (hbans ch t).trans (hb t)⟩
  roster := ((SameMembers.updChannel s d f).status d).trans h.roster

theorem sjoinNick (h : Joined s₀ s pending d ts name got) {x : Arrival}
    (hx : x.Known s₀ find link) (hnew : x.client ∉ got.map Prod.fst) :
    Joined s₀ (s.sjoinNick find link d true x.word) none d ts name ((x.client, x.flags) :: got) := by
  obtain ⟨nick, hread, hfind⟩ := hx.read
  have hperson := hx.person
  rw [← h.client] at hperson
  have hclient : (s.client? x.client).any Client.isClient = true := by
    cases hc : s.client? x.client with
    | none => rw [hc] at hperson; cases hperson
    | some who =>
        rw [hc] at hperson
        simpa using (Bool.and_eq_true _ _ ▸ hperson).2
  have hmember : s.isMember x.client d = false :=
    not_isMember_of_not_mem h.inv (by rwa [h.roster])
  have hstep : s.sjoinNick find link d true x.word = s.addUserToChannel d x.client x.flags := by
    rw [Server.sjoinNick, hread]
    simp only [hfind, hperson, hmember, if_true, believedFlags, Bool.false_eq_true, if_false]
  have hsame := SameModes.addUserToChannel s d x.client x.flags
  rw [hstep]
  exact {
    inv := h.inv.addUserToChannel h.pending_eq h.listed hclient hmember x.flags
    pending_eq := fun e he => by cases he
    client := fun a => (client?_addUserToChannel s d x.client x.flags a).trans (h.client a)
    found := (hsame.hashFindChannel _).trans h.found
    channel := by
      obtain ⟨ch, hch⟩ := h.channel
      exact ⟨ch, (channel?_addUserToChannel s d x.client x.flags d).trans hch.1, hch.2⟩
    roster := by
      rw [statusRoster_addUserToChannel h.inv h.listed, h.roster, hx.status] }

theorem sjoinNicks (h : Joined s₀ s none d ts name got) {xs : List Arrival}
    (hxs : ∀ x ∈ xs, x.Known s₀ find link)
    (hnew : (xs.map Arrival.client).Nodup ∧ ∀ x ∈ xs, x.client ∉ got.map Prod.fst) :
    Joined s₀ ((xs.map Arrival.word).foldl (fun s w => s.sjoinNick find link d true w) s) none d ts
      name ((xs.map fun x => (x.client, x.flags)).reverse ++ got) := by
  induction xs generalizing s got with
  | nil => exact h
  | cons x xs ih =>
      obtain ⟨hnodup, hfresh⟩ := hnew
      obtain ⟨hx, hnodup⟩ := List.nodup_cons.mp hnodup
      have hstep := h.sjoinNick (hxs x List.mem_cons_self) (hfresh x List.mem_cons_self)
      have hrest := ih hstep (fun y hy => hxs y (List.mem_cons_of_mem x hy)) ⟨hnodup, ?_⟩
      · simpa using hrest
      · intro y hy hmem
        rcases List.mem_cons.mp hmem with heq | hmem
        · exact hx (List.mem_map.mpr ⟨y, hy, heq⟩)
        · exact hfresh y (List.mem_cons_of_mem x hy) hmem

end Joined

/-- A line of BMASK or SJOIN that leaves room for its nicks: the modes are short. -/
theorem not_sjoinTooLong_modes (source : Client) (ts : ℤ) (chname : Buf (CHANNELLEN + 1))
    (m : Mode) : ¬ sjoinTooLong (sjoinRelayLength source ts chname.val (channelModes m true)) := by
  have hid := length_idOrName source
  have hts := length_formatULong_le ts
  have hname : chname.val.length < 201 := chname.property
  have hmodes := length_channelModes m
  have hcommand : " SJOIN ".toList.length = 7 := rfl
  have hmax : max NICKLEN IDLEN = 31 := rfl
  simp only [sjoinTooLong, sjoinRelayLength, List.length_cons, List.length_append,
    List.length_nil, IRCD_BUFSIZE, hmax]
  omega

namespace Joined

variable {s₀ s : Server} {pending : Option ℕ} {d : ℕ} {ts : ℤ} {name : Buf (CHANNELLEN + 1)}
  {got : List (ℕ × MemberFlags)} {find : Str → Option ℕ} {link : ℕ} {cfg : Config}

/-- A line that is believed, with at least one word, adds its words. -/
theorem msSjoinMerge (h : Joined s₀ s pending d ts name got) {ch : Channel} {source : Client}
    {hd : SjoinHeader} {isnew : Bool} {ts' tosend : ℤ}
    (hverdict : tsVerdict isnew (checkBogusTs cfg.ignoreBogusTs hd.newts ch.channelts)
      ch.channelts = ⟨ts', tosend, true, true⟩)
    (hmode : hd.modeText.head? ≠ some '0') {xs : List Arrival}
    (hwords : nickWords hd.nicks = xs.map Arrival.word) (hne : xs ≠ [])
    (hxs : ∀ x ∈ xs, x.Known s₀ find link)
    (hnew : (xs.map Arrival.client).Nodup ∧ ∀ x ∈ xs, x.client ∉ got.map Prod.fst) :
    Joined s₀ (s.msSjoinMerge cfg find link source hd isnew d ch) none d ts' name
      ((xs.map fun x => (x.client, x.flags)).reverse ++ got) := by
  obtain ⟨x, xs, rfl⟩ := List.exists_cons_of_ne_nil hne
  obtain ⟨hnodup, hfresh⟩ := hnew
  obtain ⟨hx, hnodup⟩ := List.nodup_cons.mp hnodup
  unfold Server.msSjoinMerge
  rw [hverdict]
  extract_lets v mode s₁ s₂ modes s₃
  have h₁ : Joined s₀ s₁ pending d ts' name got :=
    h.updChannel (fun _ => rfl) (fun _ => rfl) fun _ t => by cases t <;> rfl
  have h₂ : s₂ = s₁ := if_pos rfl
  have hmodes : modes = channelModes mode true := if_pos ⟨hmode, rfl⟩
  have hfirst := h₁.sjoinNick (hxs x List.mem_cons_self) (hfresh x List.mem_cons_self)
  have h₃ : Joined s₀ s₃ none d ts' name
      (((x :: xs).map fun x => (x.client, x.flags)).reverse ++ got) := by
    have hall := hfirst.sjoinNicks (fun y hy => hxs y (List.mem_cons_of_mem x hy)) ⟨hnodup, ?_⟩
    · dsimp only [s₃]
      rw [hwords, h₂]
      simpa using hall
    · intro y hy hmem
      rcases List.mem_cons.mp hmem with heq | hmem
      · exact hx (List.mem_map.mpr ⟨y, hy, heq⟩)
      · exact hfresh y (List.mem_cons_of_mem x hy) hmem
  have hsome : s₃.members d ≠ [] := by
    intro hnil
    have hroster := h₃.roster
    rw [statusRoster, hnil, List.filterMap_nil] at hroster
    simp at hroster
  rw [if_neg (hmodes ▸ not_sjoinTooLong_modes source _ _ _), if_neg (fun hand => hsome hand.1)]
  split
  · exact h₃
  · rw [if_neg (fun hand => by cases hand.2)]
    exact h₃

end Joined

/-- A line of `send_members` at the receiver. The parameters before the words have been read as
they were written, and the modes among them as the mode that `read` tells. -/
def receiveMembers (cfg : Config) (now : ℤ) (find : Str → Option ℕ) (link : ℕ) (source : Client)
    (read : Str → Mode) (start : Str) (ch : Channel) (s : Server) (line : Str) : Server :=
  s.sjoinRead cfg now find link source
    ⟨Decimal.atol (formatULong ch.channelts), ch.chname.val, read line,
      (channelModes ch.mode true).1, line.drop start.length⟩

/-- The timestamp of a channel that a burst makes. -/
def receivedTs (cfg : Config) (now : ℤ) (ch : Channel) : ℤ :=
  checkBogusTs cfg.ignoreBogusTs (Decimal.atol (formatULong ch.channelts)) now

theorem checkBogusTs_receivedTs (cfg : Config) (now : ℤ) (ch : Channel) :
    checkBogusTs cfg.ignoreBogusTs (Decimal.atol (formatULong ch.channelts))
      (receivedTs cfg now ch) = receivedTs cfg now ch := by
  unfold receivedTs checkBogusTs
  split_ifs <;> first | rfl | omega

theorem tsVerdict_self (ts : ℤ) : ∃ tosend, tsVerdict false ts ts = ⟨ts, tosend, true, true⟩ := by
  by_cases h : ts = 0
  · subst h
    exact ⟨0, rfl⟩
  · refine ⟨ts, ?_⟩
    rw [tsVerdict, if_neg (by simp), if_neg (by simpa using h), if_pos rfl]

section Run

variable {s₀ s : Server} {d : ℕ} {got : List (ℕ × MemberFlags)} {find : Str → Option ℕ}
  {link : ℕ} {cfg : Config} {now : ℤ} {source : Client} {read : Str → Mode} {start : Str}
  {ch : Channel}

/-- The words of a line behind its start. -/
def arrivalLine (start : Str) (xs : List Arrival) : Str :=
  start ++ List.intercalate [' '] (xs.map Arrival.word)

theorem head?_channelModes (m : Mode) : (channelModes m true).1.head? ≠ some '0' := by
  simp [channelModes]

theorem nickWords_arrivalLine {xs : List Arrival} (hne : xs ≠ [])
    (hxs : ∀ x ∈ xs, x.Known s₀ find link) :
    nickWords ((arrivalLine start xs).drop start.length) = xs.map Arrival.word := by
  rw [arrivalLine, List.drop_left]
  refine nickWords_intercalate (fun w hw => ?_) (by simpa using hne)
  obtain ⟨x, hx, rfl⟩ := List.mem_map.mp hw
  exact ⟨(hxs x hx).ne_nil, (hxs x hx).blank⟩

/-- A further line of a burst. -/
theorem Joined.receive (h : Joined s₀ s none d (receivedTs cfg now ch) ch.chname got)
    {xs : List Arrival} (hne : xs ≠ []) (hxs : ∀ x ∈ xs, x.Known s₀ find link)
    (hnew : (xs.map Arrival.client).Nodup ∧ ∀ x ∈ xs, x.client ∉ got.map Prod.fst) :
    Joined s₀ (receiveMembers cfg now find link source read start ch s (arrivalLine start xs)) none
      d (receivedTs cfg now ch) ch.chname
      ((xs.map fun x => (x.client, x.flags)).reverse ++ got) := by
  obtain ⟨ch', hch', hname, hts, -⟩ := h.channel
  obtain ⟨tosend, hverdict⟩ := tsVerdict_self (receivedTs cfg now ch)
  unfold receiveMembers sjoinRead
  rw [findOrMake, h.found]
  dsimp only
  rw [hch']
  let hd : SjoinHeader := ⟨Decimal.atol (formatULong ch.channelts), ch.chname.val,
    read (arrivalLine start xs), (channelModes ch.mode true).1,
    (arrivalLine start xs).drop start.length⟩
  have hbelieved : tsVerdict false (checkBogusTs cfg.ignoreBogusTs hd.newts ch'.channelts)
      ch'.channelts = ⟨receivedTs cfg now ch, tosend, true, true⟩ := by
    rw [hts, checkBogusTs_receivedTs, hverdict]
  exact h.msSjoinMerge hbelieved (head?_channelModes ch.mode) (nickWords_arrivalLine hne hxs) hne
    hxs hnew

/-- The first line makes the channel. -/
theorem joined_receive (hs : s₀.Inv none) (hnone : s₀.hashFindChannel ch.chname.val = none)
    {xs : List Arrival} (hne : xs ≠ []) (hxs : ∀ x ∈ xs, x.Known s₀ find link)
    (hnew : (xs.map Arrival.client).Nodup) :
    Joined s₀ (receiveMembers cfg now find link source read start ch s₀ (arrivalLine start xs))
      none s₀.nextChannel (receivedTs cfg now ch) ch.chname
      (xs.map fun x => (x.client, x.flags)).reverse := by
  have hch := channel?_makeChannel s₀ now ch.chname.val
  have hmade : Joined s₀ (s₀.makeChannel now ch.chname.val).1 (some s₀.nextChannel)
      s₀.nextChannel now ch.chname [] :=
    { inv := hs.makeChannel now ch.chname.val
      pending_eq := fun e he => (Option.some.inj he).symm
      client := fun _ => rfl
      found := by
        have hself : irccmp ch.chname.val ch.chname.val = false :=
          (irccmp_eq_false_iff _ _).mpr rfl
        have hmatch : ((s₀.makeChannel now ch.chname.val).1.channel? s₀.nextChannel).any
            (fun c => !irccmp c.chname.val ch.chname.val) = true := by
          rw [show s₀.nextChannel = (s₀.makeChannel now ch.chname.val).2 from rfl, hch]
          simp only [Option.any_some, Buf.strlcpy_val, hself, Bool.not_false]
        exact List.find?_cons_of_pos hmatch
      channel := ⟨_, hch, Buf.strlcpy_val ch.chname, rfl, fun t => by cases t <;> rfl⟩
      roster := by
        rw [statusRoster, members]
        have := listed_makeChannel s₀ now ch.chname.val
        rw [show (s₀.makeChannel now ch.chname.val).2 = s₀.nextChannel from rfl] at this
        rw [this]
        rfl }
  unfold receiveMembers sjoinRead
  rw [findOrMake, hnone]
  dsimp only
  rw [hch]
  rw [← List.append_nil (xs.map fun x => (x.client, x.flags)).reverse]
  exact hmade.msSjoinMerge rfl (head?_channelModes ch.mode) (nickWords_arrivalLine hne hxs) hne hxs
    ⟨hnew, fun _ _ => List.not_mem_nil⟩

theorem Joined.receive_run {gs : List (List Arrival)}
    (h : Joined s₀ s none d (receivedTs cfg now ch) ch.chname got)
    (hgs : ∀ g ∈ gs, g ≠ [] ∧ ∀ x ∈ g, x.Known s₀ find link)
    (hnew : (gs.flatten.map Arrival.client).Nodup ∧
      ∀ x ∈ gs.flatten, x.client ∉ got.map Prod.fst) :
    Joined s₀ ((gs.map (arrivalLine start)).foldl
      (receiveMembers cfg now find link source read start ch) s) none d (receivedTs cfg now ch)
      ch.chname ((gs.flatten.map fun x => (x.client, x.flags)).reverse ++ got) := by
  induction gs generalizing s got with
  | nil => exact h
  | cons g gs ih =>
      obtain ⟨hnodup, hfresh⟩ := hnew
      rw [List.flatten_cons, List.map_append, List.nodup_append] at hnodup
      obtain ⟨hg, hrest, hdisjoint⟩ := hnodup
      have hmem : ∀ x, x ∈ g ∨ x ∈ gs.flatten → x ∈ (g :: gs).flatten := fun x hx => by
        rwa [List.flatten_cons, List.mem_append]
      obtain ⟨hne, hknown⟩ := hgs g List.mem_cons_self
      have hline : Joined s₀ (receiveMembers cfg now find link source read start ch s
          (arrivalLine start g)) none d _ _ _ :=
        h.receive hne hknown ⟨hg, fun x hx => hfresh x (hmem x (Or.inl hx))⟩
      have hrun := ih hline (fun g' hg' => hgs g' (List.mem_cons_of_mem g hg')) ⟨hrest, ?_⟩
      · rw [List.map_cons, List.foldl_cons]
        simpa using hrun
      · intro x hx hin
        rw [List.map_append, List.mem_append] at hin
        rcases hin with hin | hin
        · rw [List.map_reverse, List.mem_reverse, List.map_map] at hin
          obtain ⟨y, hy, heq⟩ := List.mem_map.mp hin
          exact hdisjoint y.client (List.mem_map_of_mem hy) x.client (List.mem_map_of_mem hx) heq
        · exact hfresh x (hmem x (Or.inr hx)) hin

/-- All lines of a burst, on a server that has no such channel. -/
theorem joined_receive_run {gs : List (List Arrival)} (hs : s₀.Inv none)
    (hnone : s₀.hashFindChannel ch.chname.val = none) (hne : gs ≠ [])
    (hgs : ∀ g ∈ gs, g ≠ [] ∧ ∀ x ∈ g, x.Known s₀ find link)
    (hnew : (gs.flatten.map Arrival.client).Nodup) :
    Joined s₀ ((gs.map (arrivalLine start)).foldl
      (receiveMembers cfg now find link source read start ch) s₀) none s₀.nextChannel
      (receivedTs cfg now ch) ch.chname
      (gs.flatten.map fun x => (x.client, x.flags)).reverse := by
  obtain ⟨g, gs, rfl⟩ := List.exists_cons_of_ne_nil hne
  rw [List.flatten_cons, List.map_append, List.nodup_append] at hnew
  obtain ⟨hg, hrest, hdisjoint⟩ := hnew
  obtain ⟨hgne, hknown⟩ := hgs g List.mem_cons_self
  have hline : Joined s₀ (receiveMembers cfg now find link source read start ch s₀
      (arrivalLine start g)) none s₀.nextChannel _ _ _ := joined_receive hs hnone hgne hknown hg
  rw [List.map_cons, List.foldl_cons]
  rw [List.flatten_cons, List.map_append, List.reverse_append]
  refine hline.receive_run (fun g' hg' => hgs g' (List.mem_cons_of_mem g hg')) ⟨hrest, ?_⟩
  · intro x hx hin
    rw [List.map_reverse, List.mem_reverse, List.map_map] at hin
    obtain ⟨y, hy, heq⟩ := List.mem_map.mp hin
    exact hdisjoint y.client (List.mem_map_of_mem hy) x.client (List.mem_map_of_mem hx) heq

end Run

section Masks

variable {cfg : Config} {s : Server} {b d : ℕ} {source : Client} {ch : Channel}

/-- A line of `send_mode_list` at the receiver. -/
def receiveBmask (cfg : Config) (b : ℕ) (s : Server) (line : Str) : Server :=
  if irccmp (splitLine line).1 "BMASK".toList = false then s.msBmask cfg b (splitLine line).2
  else s

/-- The masks of several lines, each with its list. -/
def addMasks (cfg : Config) (b d : ℕ) (s : Server) (groups : List (BanType × List Ban)) : Server :=
  groups.foldl (fun s p => s.bmaskLoop cfg b d p.1 (p.2.map Ban.text)) s

/-- The masks that the lines have for a list. -/
def masksOf (groups : List (BanType × List Ban)) (type : BanType) : List Ban :=
  (groups.filter fun p => p.1 = type).flatMap Prod.snd

theorem sameMembers_addMasks (s : Server) (groups : List (BanType × List Ban)) :
    SameMembers s (addMasks cfg b d s groups) :=
  SameMembers.foldl _ (fun s (p : BanType × List Ban) =>
    SameMembers.bmaskLoop s (p.2.map Ban.text)) groups s

theorem sameModes_addMasks (s : Server) (groups : List (BanType × List Ban)) :
    SameModes s (addMasks cfg b d s groups) :=
  SameModes.foldl _ (fun s (p : BanType × List Ban) =>
    SameModes.bmaskLoop s (p.2.map Ban.text)) groups s

theorem masksOf_cons (p : BanType × List Ban) (groups : List (BanType × List Ban))
    (type : BanType) : masksOf (p :: groups) type =
      (if p.1 = type then p.2 else []) ++ masksOf groups type := by
  unfold masksOf
  by_cases h : p.1 = type <;> simp [h]

/-- Masks that are carried and differ within their lists end up in the lists. -/
theorem channel?_addMasks (hs : s.client? b = some source) (hmy : source.myClient = false)
    (hch : s.channel? d = some ch) {groups : List (BanType × List Ban)}
    (hmade : ∀ p ∈ groups, ∀ x ∈ p.2, x.Made ∧ x.Carried)
    (hnew : ∀ t, ∀ x ∈ masksOf groups t, ∀ y ∈ ch.bans t, x.same y = false)
    (hdistinct : ∀ t, (masksOf groups t).Pairwise fun x y => y.same x = false) :
    ∃ ch', (addMasks cfg b d s groups).channel? d = some ch' ∧
      ∀ t, ch'.bans t = (masksOf groups t).reverse ++ ch.bans t := by
  induction groups generalizing s ch with
  | nil => exact ⟨ch, hch, fun t => rfl⟩
  | cons p groups ih =>
      have hmem : ∀ x ∈ p.2, x ∈ masksOf (p :: groups) p.1 := fun x hx => by
        rw [masksOf_cons, if_pos rfl]
        exact List.mem_append_left _ hx
      have hpair := hdistinct p.1
      rw [masksOf_cons, if_pos rfl, List.pairwise_append] at hpair
      have hfirst : (s.bmaskLoop cfg b d p.1 (p.2.map Ban.text)).channel? d = _ :=
        channel?_bmaskLoop hs hmy hch (hmade p List.mem_cons_self)
          (fun x hx => hnew p.1 x (hmem x hx)) hpair.1
      have hclient : (s.bmaskLoop cfg b d p.1 (p.2.map Ban.text)).client? b = some source :=
        ((SameMembers.bmaskLoop s _).client b).trans hs
      have hnew' : ∀ t, ∀ x ∈ masksOf groups t,
          ∀ y ∈ (ch.setBans (p.2.reverse ++ ch.bans p.1) p.1).bans t, x.same y = false := by
        intro t x hx y hy
        have hx' : x ∈ masksOf (p :: groups) t := by
          rw [masksOf_cons]
          exact List.mem_append_right _ hx
        by_cases ht : t = p.1
        · subst ht
          rw [Channel.bans_setBans_self, List.mem_append, List.mem_reverse] at hy
          rcases hy with hy | hy
          · exact hpair.2.2 y hy x hx
          · exact hnew _ x hx' y hy
        · rw [Channel.bans_setBans_of_ne ch ht] at hy
          exact hnew t x hx' y hy
      have hdistinct' : ∀ t, (masksOf groups t).Pairwise fun x y => y.same x = false := by
        intro t
        have ht := hdistinct t
        rw [masksOf_cons, List.pairwise_append] at ht
        exact ht.2.1
      obtain ⟨ch', hch', hbans⟩ := ih hclient hfirst
        (fun q hq => hmade q (List.mem_cons_of_mem p hq)) hnew' hdistinct'
      refine ⟨ch', hch', fun t => ?_⟩
      rw [hbans t, masksOf_cons]
      by_cases ht : p.1 = t
      · subst ht
        simp
      · rw [if_neg ht, Channel.bans_setBans_of_ne ch (Ne.symm ht), List.nil_append]

/-- Whatever the masks are, only those that are carried arrive. -/
theorem carried_addMasks (hs : s.client? b = some source) (hmy : source.myClient = false)
    (hch : s.channel? d = some ch) {groups : List (BanType × List Ban)}
    (hmade : ∀ p ∈ groups, ∀ x ∈ p.2, x.Made) :
    ∃ ch', (addMasks cfg b d s groups).channel? d = some ch' ∧
      ∀ t, ∀ x ∈ ch'.bans t, x ∈ ch.bans t ∨ x.Carried := by
  induction groups generalizing s ch with
  | nil => exact ⟨ch, hch, fun t x hx => Or.inl hx⟩
  | cons p groups ih =>
      have hspace : ∀ m ∈ p.2.map Ban.text, ∀ x ∈ m, Decimal.isSpace x = false := by
        intro m hm
        obtain ⟨x, hx, rfl⟩ := List.mem_map.mp hm
        exact (hmade p List.mem_cons_self x hx).text_ne_space
      have hclient : (s.bmaskLoop cfg b d p.1 (p.2.map Ban.text)).client? b = some source :=
        ((SameMembers.bmaskLoop s _).client b).trans hs
      obtain ⟨ch₁, hch₁, hgrows⟩ : ∃ ch₁, (s.bmaskLoop cfg b d p.1 (p.2.map Ban.text)).channel? d =
          some ch₁ ∧ GrowsCarried p.1 ch ch₁ := growsCarried_bmaskLoop hs hmy hch hspace
      obtain ⟨ch', hch', hbans⟩ := ih hclient hch₁ fun q hq => hmade q (List.mem_cons_of_mem p hq)
      refine ⟨ch', hch', fun t x hx => ?_⟩
      rcases hbans t x hx with hx | hx
      · by_cases ht : t = p.1
        · subst ht
          exact hgrows.carried x hx
        · rw [hgrows.eq, Channel.bans_setBans_of_ne ch ht] at hx
          exact Or.inl hx
      · exact Or.inr hx

end Masks

section Lines

variable {cfg : Config} {s : Server} {b d : ℕ} {ch : Channel}

/-- The letter of a list in `send_channel_modes`. -/
def banLetter : BanType → Char
  | .ban => 'b'
  | .exception => 'e'
  | .invex => 'I'

theorem bmaskType_banLetter (t : BanType) : bmaskType [banLetter t] = some t := by
  cases t <;> rfl

theorem isWord_banLetter (t : BanType) : IsWord [banLetter t] := by
  cases t <;> exact ⟨by decide, by decide, by decide⟩

/-- A line of `send_mode_list` with BMASK. -/
def bmaskLine (meId : Str) (ch : Channel) (p : BanType × List Ban) : Str :=
  modeListStart true [] meId ch (banLetter p.1) ++ List.intercalate [' '] (p.2.map Ban.text)

/-- The line is read as the masks it was written for. -/
theorem receiveBmask_bmaskLine {me : Str} (hme : ' ' ∉ me) (name : GlobalName)
    (hname : ch.chname.val = name.val) {p : BanType × List Ban} (hne : p.2 ≠ [])
    (hmade : ∀ x ∈ p.2, x.Made) (hlen : (bmaskLine me ch p).length ≤ IRCD_BUFSIZE - 2)
    (hfound : s.hashFindChannel ch.chname.val = some d) {ch' : Channel}
    (hch : s.channel? d = some ch')
    (hts : Decimal.atol (formatULong ch.channelts) ≤ ch'.channelts) :
    receiveBmask cfg b s (bmaskLine me ch p) =
      s.bmaskLoop cfg b d p.1 (p.2.map Ban.text) := by
  have hline : bmaskLine me ch p = ':' :: (me ++ ' ' :: ("BMASK".toList ++ ' ' ::
      (formatULong ch.channelts ++ ' ' :: (name.val ++ ' ' :: ([banLetter p.1] ++ ' ' ::
        ':' :: List.intercalate [' '] (p.2.map Ban.text)))))) := by
    have hcommand : " BMASK ".toList = ' ' :: ("BMASK".toList ++ [' ']) := rfl
    simp only [bmaskLine, modeListStart, if_true, hcommand, hname, List.append_assoc,
      List.cons_append, List.nil_append]
  have hsplit := splitLine_command hme (show ' ' ∉ "BMASK".toList by decide) (by decide)
    (formatULong ch.channelts ++ ' ' :: (name.val ++ ' ' :: ([banLetter p.1] ++ ' ' ::
        ':' :: List.intercalate [' '] (p.2.map Ban.text))))
  rw [stringToArray, splitArgs_word (isWord_formatULong _), splitArgs_word (isWord_globalName name),
    splitArgs_word (isWord_banLetter p.1), splitArgs_colon, ← hline] at hsplit
  have hmasks : (List.intercalate [' '] (p.2.map Ban.text)).take (IRCD_BUFSIZE - 1) =
      List.intercalate [' '] (p.2.map Ban.text) := by
    refine List.take_of_length_le ?_
    rw [bmaskLine, List.length_append] at hlen
    omega
  have hwords : (List.intercalate [' '] (p.2.map Ban.text)).splitOn ' ' = p.2.map Ban.text := by
    refine List.splitOn_intercalate ' ' (fun w hw hblank => ?_) (by simpa using hne)
    obtain ⟨x, hx, rfl⟩ := List.mem_map.mp hw
    exact absurd ((hmade x hx).text_ne_space ' ' hblank) (by decide)
  have hcommand : irccmp "BMASK".toList "BMASK".toList = false := by decide
  unfold receiveBmask
  rw [hsplit, if_pos hcommand]
  unfold msBmask
  dsimp only
  rw [← hname, hfound, bmaskType_banLetter]
  dsimp only
  rw [hch, if_neg (by simpa using hts), hmasks, hwords]

theorem receiveBmask_run {me : Str} (hme : ' ' ∉ me) (name : GlobalName)
    (hname : ch.chname.val = name.val) {groups : List (BanType × List Ban)}
    (hgroups : ∀ p ∈ groups, p.2 ≠ [] ∧ (∀ x ∈ p.2, x.Made) ∧
      (bmaskLine me ch p).length ≤ IRCD_BUFSIZE - 2)
    (hfound : s.hashFindChannel ch.chname.val = some d) {ts : ℤ}
    (hch : (s.channel? d).map Channel.channelts = some ts)
    (hts : Decimal.atol (formatULong ch.channelts) ≤ ts) :
    (groups.map (bmaskLine me ch)).foldl (receiveBmask cfg b) s =
      addMasks cfg b d s groups := by
  induction groups generalizing s with
  | nil => rfl
  | cons p groups ih =>
      obtain ⟨hne, hmade, hlen⟩ := hgroups p List.mem_cons_self
      obtain ⟨ch', hch', rfl⟩ := Option.map_eq_some_iff.mp hch
      have hsame : SameModes s (s.bmaskLoop cfg b d p.1 (p.2.map Ban.text)) :=
        SameModes.bmaskLoop s (p.2.map Ban.text)
      have hch₁ : ((s.bmaskLoop cfg b d p.1 (p.2.map Ban.text)).channel? d).map
          Channel.channelts = some ch'.channelts := by
        have := congrArg (Option.map Stamped.stamp) (hsame.stamped d)
        rw [Option.map_map, Option.map_map, hch'] at this
        exact this
      rw [List.map_cons, List.foldl_cons,
        receiveBmask_bmaskLine hme name hname hne hmade hlen hfound hch' hts]
      exact ih (fun q hq => hgroups q (List.mem_cons_of_mem p hq))
        ((hsame.hashFindChannel _).trans hfound) hch₁

end Lines

end Server

end Unirc
