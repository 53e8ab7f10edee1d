import Unirc.MemberRoundTrip
import Unirc.Nicknames

/-!
# A burst of members and masks

The lines that a server sends for a channel, and what they come to at a server that reads them
all.
-/

namespace Unirc

open MemberFlag Server

/-- A user under a clean nick, with an identifier as `new_uid` makes them or none. -/
structure Client.Introduced (a : Client) : Prop where
  nick : cleanNickName a.name.val false = true
  nick_length : a.name.val.length < NICKLEN
  uid : a.id.val = [] ∨ isUid a.id.val = true

theorem Client.Introduced.burstName {a : Client} (h : a.Introduced) (ts6 : Bool) :
    BurstName (a.sentName ts6) := by
  have hchar : ∀ c, (isNickChar c = true ∨ c.isAlphanum = true) →
      c ≠ ' ' ∧ nickPrefixes.lookup c = none := by
    intro c hc
    have hne : (' ' :: nickPrefixes.map Prod.fst).all
        (fun p => !isNickChar p && !p.isAlphanum) = true := by decide
    have hnot : c ∉ ' ' :: nickPrefixes.map Prod.fst := by
      intro hmem
      have hmem := List.all_eq_true.mp hne c hmem
      rw [Bool.and_eq_true, Bool.not_eq_true', Bool.not_eq_true'] at hmem
      obtain ⟨h₁, h₂⟩ := hmem
      rcases hc with hc | hc
      · rw [h₁] at hc; cases hc
      · rw [h₂] at hc; cases hc
    refine ⟨fun h => hnot (h ▸ List.mem_cons_self), ?_⟩
    refine List.lookup_eq_none_iff.mpr fun p hp => ?_
    refine bne_iff_ne.mpr ?_
    rintro rfl
    exact hnot (List.mem_cons_of_mem _ (List.mem_map_of_mem hp))
  have hof {s : Str} (hne : s ≠ []) (hlen : s.length < NICKLEN)
      (hs : ∀ c ∈ s, isNickChar c = true ∨ c.isAlphanum = true) : BurstName s :=
    ⟨hne, fun hmem => (hchar ' ' (hs ' ' hmem)).1 rfl,
      fun c hc => (hchar c (hs c (List.mem_of_head? hc))).2, hlen⟩
  obtain ⟨hnick, hchars⟩ := isNickChar_of_cleanNickName h.nick
  have hname : BurstName a.name.val := hof hnick h.nick_length fun c hc => Or.inl (hchars c hc)
  have hidlen : a.id.val.length < NICKLEN := by
    have hlen : a.id.val.length < 13 := a.id.property
    exact hlen.trans (by decide)
  unfold Client.sentName Client.idOrName Client.hasId
  split
  · split
    · rename_i hid
      have huid := h.uid.resolve_left (by simpa using hid)
      obtain ⟨hne, halpha⟩ := isAlphanum_of_isUid huid
      exact hof hne hidlen fun c hc => Or.inr (halpha c hc)
    · exact hname
  · exact hname

/-- The lists of a channel as `add_id` fills them. -/
structure Channel.ListsMade (ch : Channel) : Prop where
  made : ∀ t, ∀ x ∈ ch.bans t, x.Made
  distinct : ∀ t, (ch.bans t).Pairwise fun x y => x.same y = false

theorem Channel.ListsMade.cons {ch : Channel} (h : ch.ListsMade) {m : Str} {t : BanType}
    (hnew : (ch.bans t).any (Ban.parse m).same = false) :
    (ch.setBans (Ban.parse m :: ch.bans t) t).ListsMade := by
  constructor
  · intro u x hx
    by_cases hu : u = t
    · subst hu
      rw [Channel.bans_setBans_self] at hx
      rcases List.mem_cons.mp hx with rfl | hx
      · exact ⟨m, rfl⟩
      · exact h.made u x hx
    · rw [Channel.bans_setBans_of_ne ch hu] at hx
      exact h.made u x hx
  · intro u
    by_cases hu : u = t
    · subst hu
      rw [Channel.bans_setBans_self, List.pairwise_cons]
      refine ⟨fun y hy => ?_, h.distinct u⟩
      simpa using List.any_eq_false.mp hnew y hy
    · rw [Channel.bans_setBans_of_ne ch hu]
      exact h.distinct u

theorem Ban.same_self (x : Ban) : x.same x = true := by
  simp [Ban.same, irccmp_self]

theorem Ban.same_comm (x y : Ban) : x.same y = y.same x := by
  have hcomm (s t : Str) : irccmp s t = irccmp t s := by
    unfold irccmp
    exact bne_comm
  rw [Ban.same, Ban.same, hcomm x.name, hcomm x.username, hcomm x.host]

/-- The lines of `send_mode_list` for the lists of a channel, on a link that takes them all. -/
def burstMaskLines (me : Client) (ts6 : Bool) (ch : Channel) : List Str :=
  [BanType.ban, .exception, .invex].flatMap fun t =>
    sendModeList ts6 (modeListStart ts6 me.name.val me.id.val ch (banLetter t)) (banLetter t)
      (ch.bans t)

namespace Server

/-- The lines of `send_members`. -/
def burstMemberLines (src : Server) (c : ℕ) (me : Client) (ts6 : Bool) (ch : Channel) : List Str :=
  sendMembers (membersStart (me.sentName ts6) ch)
    ((src.burstMembers c).map fun x => memberItem ts6 x.2.1 x.2.2)

/-- The receiver finds the users of a channel under the names it is sent, behind the link. -/
structure Knows (src : Server) (c : ℕ) (ts6 : Bool) (s : Server) (find : Str → Option ℕ)
    (link : ℕ) (known : ℕ → ℕ) : Prop where
  finds : ∀ x ∈ src.burstMembers c, find (x.2.1.sentName ts6) = some (known x.1)
  person : ∀ x ∈ src.burstMembers c,
    (s.client? (known x.1)).any (fun who => who.from_ == link && who.isClient) = true
  inj : ∀ x ∈ src.burstMembers c, ∀ y ∈ src.burstMembers c, known x.1 = known y.1 → x.1 = y.1

end Server

section Starts

theorem length_sentName_le (me : Client) (ts6 : Bool) : (me.sentName ts6).length ≤ 63 := by
  unfold Client.sentName
  split
  · exact length_idOrName me
  · exact Nat.le_of_lt_succ me.name.property

theorem length_membersStart (me : Client) (ts6 : Bool) (ch : Channel) :
    (membersStart (me.sentName ts6) ch).length ≤ 456 := by
  have hme := length_sentName_le me ts6
  have hts := length_formatULong_le ch.channelts
  have hname : ch.chname.val.length < 201 := ch.chname.property
  have hmodes := length_channelModes ch.mode
  have hcommand : " SJOIN ".toList.length = 7 := rfl
  simp only [membersStart, List.length_cons, List.length_append, List.length_nil]
  omega

theorem length_modeListStart (me : Client) (ts6 : Bool) (ch : Channel) (flag : Char) :
    (modeListStart ts6 me.name.val me.id.val ch flag).length + ts5Len ts6 ≤ 273 := by
  have hid : me.id.val.length < 13 := me.id.property
  have hme : me.name.val.length < 64 := me.name.property
  have hts := length_formatULong_le ch.channelts
  have hname : ch.chname.val.length < 201 := ch.chname.property
  have hbmask : " BMASK ".toList.length = 7 := rfl
  have hmode : " MODE ".toList.length = 6 := rfl
  cases ts6
  · simp only [modeListStart, Bool.false_eq_true, if_false, ts5Len, List.length_cons,
      List.length_append, List.length_nil]
    omega
  · simp only [modeListStart, if_true, ts5Len, List.length_cons, List.length_append,
      List.length_nil]
    omega

theorem length_memberItem {a : Client} (h : a.Introduced) (ts6 : Bool) (flags : MemberFlags) :
    (memberItem ts6 a flags).tlen ≤ 36 := by
  have hname := (h.burstName ts6).length
  have hmarks : memberMarks.countP (fun p => p.1 ∈ flags) ≤ memberMarks.length :=
    List.countP_le_length
  have hfive : memberMarks.length = 5 := rfl
  simp only [memberItem, NICKLEN] at hname ⊢
  omega

theorem length_tlen (ts6 : Bool) {x : Ban} (h : x.Made) : ModeListBuf.tlen ts6 x ≤ 107 := by
  have htext := h.length_text
  have hlen := ModeListBuf.length_ban_text ts6 h.measured
  have hts5 : ts5Len ts6 ≤ 1 := by cases ts6 <;> decide
  omega

end Starts

section Groups

variable {s : Server} {find : Str → Option ℕ} {link : ℕ} {src : Server} {c : ℕ} {ch : Channel}
  {me : Client} {ts6 : Bool}

/-- A member of the sender as the receiver sees it. -/
def burstArrival (known : ℕ → ℕ) (ts6 : Bool) (x : ℕ × Client × MemberFlags) : Arrival where
  word := (memberItem ts6 x.2.1 x.2.2).word
  client := known x.1
  flags := x.2.2 ∩ statusFlags

theorem known_burstArrival {known : ℕ → ℕ} (hknows : Knows src c ts6 s find link known)
    {x : ℕ × Client × MemberFlags} (hx : x ∈ src.burstMembers c) (hname : x.2.1.Introduced) :
    (burstArrival known ts6 x).Known s find link := by
  have hburst := hname.burstName ts6
  have hmarks : ∀ p ∈ memberMarks, p.2.1 ≠ ' ' := by decide
  refine ⟨?_, ?_, ⟨x.2.1.sentName ts6, readPrefixes_getMemberStatus hburst.head _,
    hknows.finds x hx⟩, hknows.person x hx, ?_⟩
  · simp only [burstArrival, memberItem]
    exact List.append_ne_nil_of_right_ne_nil _ hburst.ne_nil
  · intro hblank
    simp only [burstArrival, memberItem] at hblank
    rcases List.mem_append.mp hblank with h | h
    · simp only [getMemberStatus, if_true, Bool.false_eq_true, if_false] at h
      obtain ⟨p, hp, heq⟩ := List.mem_map.mp h
      exact hmarks p (List.mem_filter.mp hp).1 heq
    · exact hburst.blank h
  · exact Finset.inter_eq_left.mpr Finset.inter_subset_right

/-- The lines of the members are made of groups of them, and are short. -/
theorem exists_groups_memberLines (hnames : ∀ x ∈ src.burstMembers c, x.2.1.Introduced)
    (hne : src.burstMembers c ≠ []) (known : ℕ → ℕ) :
    ∃ gs : List (List (ℕ × Client × MemberFlags)), gs ≠ [] ∧ gs.flatten = src.burstMembers c ∧
      (∀ g ∈ gs, g ≠ []) ∧
      src.burstMemberLines c me ts6 ch = gs.map (fun g =>
        arrivalLine (membersStart (me.sentName ts6) ch) (g.map (burstArrival known ts6))) ∧
      ∀ line ∈ src.burstMemberLines c me ts6 ch, line.length ≤ IRCD_BUFSIZE - 2 := by
  obtain ⟨x, xs, hxs⟩ := List.exists_cons_of_ne_nil hne
  have hstart := length_membersStart me ts6 ch
  have hroom : ∀ y ∈ x :: xs, (membersStart (me.sentName ts6) ch).length +
      (memberItem ts6 y.2.1 y.2.2).tlen ≤ IRCD_BUFSIZE - 1 := by
    intro y hy
    have := length_memberItem (hnames y (hxs ▸ hy)) ts6 y.2.2
    simp only [IRCD_BUFSIZE]
    omega
  let item (y : ℕ × Client × MemberFlags) : MemberItem := memberItem ts6 y.2.1 y.2.2
  let start := membersStart (me.sentName ts6) ch
  let gs := Packing.pack (fun l y => memberFits start (l.map item) (item y)) [x] xs
  have hlines : src.burstMemberLines c me ts6 ch =
      (gs.map (List.map item)).map (membersLine start) := by
    rw [burstMemberLines, hxs, List.map_cons, sendMembers_eq_pack _ (hroom x List.mem_cons_self)]
    exact congrArg _ (Packing.pack_map item [x] xs)
  have hgs : ∀ g ∈ gs, g ≠ [] := Packing.pack_ne_nil (List.cons_ne_nil x [])
  have hflatten : gs.flatten = src.burstMembers c := by
    rw [hxs]
    exact Packing.flatten_pack [x] xs
  refine ⟨gs, fun hnil => ?_, hflatten, hgs, ?_, ?_⟩
  · rw [hnil] at hflatten
    exact hne hflatten.symm
  · rw [hlines, List.map_map]
    refine List.map_congr_left fun g _ => ?_
    simp only [Function.comp, membersLine, arrivalLine, List.map_map]
    rfl
  · rw [hlines, ← Packing.pack_map item [x] xs]
    intro line hline
    obtain ⟨g, hg, rfl⟩ := List.mem_map.mp hline
    refine length_membersLine_of_pack (fun y hy => ?_) g hg
    obtain ⟨z, hz, rfl⟩ := List.mem_map.mp (List.map_cons ▸ hy : y ∈ (x :: xs).map item)
    exact ⟨tlen_memberItem ts6 z.2.1 z.2.2, hroom z hz⟩

theorem sendModeList_groups (hlists : ch.ListsMade) (me : Client) (t : BanType) :
    ∃ gs : List (List Ban), gs.flatten = ch.bans t ∧ (∀ g ∈ gs, g ≠ []) ∧
      sendModeList true (modeListStart true me.name.val me.id.val ch (banLetter t)) (banLetter t)
        (ch.bans t) = gs.map fun g => bmaskLine me.id.val ch (t, g) := by
  have hstart := length_modeListStart me true ch (banLetter t)
  cases hbans : ch.bans t with
  | nil => exact ⟨[], rfl, fun g hg => (List.not_mem_nil hg).elim, rfl⟩
  | cons x xs =>
      have hx := length_tlen true (hlists.made t x (hbans ▸ List.mem_cons_self))
      refine ⟨Packing.pack (ModeListBuf.fits true
        (modeListStart true me.name.val me.id.val ch (banLetter t)) (banLetter t)) [x] xs,
        Packing.flatten_pack [x] xs, Packing.pack_ne_nil (List.cons_ne_nil x []), ?_⟩
      rw [ModeListBuf.sendModeList_eq_pack xs (by simp only [IRCD_BUFSIZE]; omega)]
      refine List.map_congr_left fun g _ => ?_
      rw [ModeListBuf.line_ofBans_ts6]
      rfl

theorem length_sendModeList (hlists : ch.ListsMade) (me : Client) (ts6 : Bool) (t : BanType) :
    ∀ line ∈ sendModeList ts6 (modeListStart ts6 me.name.val me.id.val ch (banLetter t))
      (banLetter t) (ch.bans t), line.length ≤ IRCD_BUFSIZE - 2 := by
  have hstart := length_modeListStart me ts6 ch (banLetter t)
  cases hbans : ch.bans t with
  | nil => exact fun line hline => (List.not_mem_nil hline).elim
  | cons x xs =>
      have hroom : ∀ y ∈ x :: xs, (modeListStart ts6 me.name.val me.id.val ch
          (banLetter t)).length + ts5Len ts6 + ModeListBuf.tlen ts6 y ≤ IRCD_BUFSIZE - 1 := by
        intro y hy
        have := length_tlen ts6 (hlists.made t y (hbans ▸ hy))
        simp only [IRCD_BUFSIZE]
        omega
      rw [ModeListBuf.sendModeList_eq_pack xs (hroom x List.mem_cons_self)]
      intro line hline
      obtain ⟨g, hg, rfl⟩ := List.mem_map.mp hline
      exact ModeListBuf.length_line_of_pack (fun y hy => (hlists.made t y (hbans ▸ hy)).measured)
        hroom g hg

theorem length_burstMaskLines (hlists : ch.ListsMade) (me : Client) (ts6 : Bool) :
    ∀ line ∈ burstMaskLines me ts6 ch, line.length ≤ IRCD_BUFSIZE - 2 := by
  intro line hline
  obtain ⟨t, -, hline⟩ := List.mem_flatMap.mp hline
  exact length_sendModeList hlists me ts6 t line hline

theorem masksOf_append (groups groups' : List (BanType × List Ban)) (t : BanType) :
    masksOf (groups ++ groups') t = masksOf groups t ++ masksOf groups' t := by
  simp [masksOf]

theorem masksOf_map (gs : List (List Ban)) (t u : BanType) :
    masksOf (gs.map fun g => (t, g)) u = if t = u then gs.flatten else [] := by
  induction gs with
  | nil => simp [masksOf]
  | cons g gs ih =>
      rw [List.map_cons, masksOf_cons, ih]
      split <;> simp

/-- The lines of the masks are made of groups of them. -/
theorem exists_groups_maskLines (hlists : ch.ListsMade) (me : Client) :
    ∃ groups : List (BanType × List Ban), (∀ p ∈ groups, p.2 ≠ []) ∧
      (∀ t, masksOf groups t = ch.bans t) ∧
      burstMaskLines me true ch = groups.map (bmaskLine me.id.val ch) := by
  choose gs hflatten hne hlines using sendModeList_groups hlists me
  refine ⟨[BanType.ban, .exception, .invex].flatMap fun t => (gs t).map fun g => (t, g),
    fun p hp => ?_, fun t => ?_, ?_⟩
  · obtain ⟨t, -, hp⟩ := List.mem_flatMap.mp hp
    obtain ⟨g, hg, rfl⟩ := List.mem_map.mp hp
    exact hne t g hg
  · simp only [List.flatMap_cons, List.flatMap_nil, List.append_nil, masksOf_append, masksOf_map]
    cases t <;> simp [hflatten]
  · rw [burstMaskLines, List.map_flatMap]
    refine List.flatMap_congr fun t _ => ?_
    rw [hlines t, List.map_map]
    rfl

theorem mem_of_masksOf {groups : List (BanType × List Ban)} {p : BanType × List Ban}
    (hp : p ∈ groups) {x : Ban} (hx : x ∈ p.2) : x ∈ masksOf groups p.1 :=
  List.mem_flatMap.mpr ⟨p, List.mem_filter.mpr ⟨hp, by simp⟩, hx⟩

end Groups

namespace Server

section ReadBack

/-- A server with a channel, and one that knows its users and has no such channel: `me` sends, and
what arrives comes from the server `b` over `link`. -/
structure BurstPair (now : ℤ) (find : Str → Option ℕ) (link b : ℕ) (source : Client) (src : Server)
    (c : ℕ) (me : Client) (ts6 : Bool) (ch : Channel) (s : Server) (known : ℕ → ℕ) : Prop where
  sender : src.Inv none
  channel : src.channel? c = some ch
  name : ∃ name : GlobalName, ch.chname.val = name.val
  lists : ch.ListsMade
  introduced : ∀ x ∈ src.burstMembers c, x.2.1.Introduced
  me_blank : ' ' ∉ me.id.val
  receiver : s.Inv none
  absent : s.hashFindChannel ch.chname.val = none
  source_eq : s.client? b = some source
  remote : source.myClient = false
  clock : now ≠ 0
  knows : Knows src c ts6 s find link known

variable (cfg : Config) (now : ℤ) (find : Str → Option ℕ) (link b : ℕ) (source : Client)
  (read : Str → Mode) (src : Server) (c : ℕ) (me : Client) (ts6 : Bool) (ch : Channel)

/-- The receiver after all lines of a channel: the members, then the masks. -/
def receiveBurstLines (s : Server) : Server :=
  (burstMaskLines me true ch).foldl (receiveBmask cfg b)
    ((src.burstMemberLines c me ts6 ch).foldl
      (receiveMembers cfg now find link source read (membersStart (me.sentName ts6) ch) ch) s)

/-- The lines are short, and the receiver ends with the members, each under its flags, and with the
masks, each in its list. -/
structure BurstReadBack (s : Server) (known : ℕ → ℕ) : Prop where
  short : ∀ line ∈ src.burstMemberLines c me ts6 ch ++ burstMaskLines me true ch,
    line.length ≤ IRCD_BUFSIZE - 2
  channel : ∃ d ch',
    (receiveBurstLines cfg now find link b source read src c me ts6 ch s).hashFindChannel
      ch.chname.val = some d ∧
    (receiveBurstLines cfg now find link b source read src c me ts6 ch s).channel? d = some ch' ∧
    ((receiveBurstLines cfg now find link b source read src c me ts6 ch s).statusRoster d).Perm
      ((src.statusRoster c).map fun x => (known x.1, x.2)) ∧
    ∀ t, (ch'.bans t).Perm (ch.bans t)

end ReadBack

section Main

variable {cfg : Config} {now : ℤ} {find : Str → Option ℕ} {link b : ℕ} {source : Client}
  {read : Str → Mode} {src : Server} {c : ℕ} {me : Client} {ts6 : Bool} {ch : Channel}
  {s : Server} {known : ℕ → ℕ}

theorem le_receivedTs (cfg : Config) (hnow : now ≠ 0) (ch : Channel) :
    Decimal.atol (formatULong ch.channelts) ≤ receivedTs cfg now ch := by
  unfold receivedTs checkBogusTs
  split_ifs <;> omega

theorem burstMembers_ne_nil (h : src.Inv none) (hch : src.channel? c = some ch) :
    src.burstMembers c ≠ [] := by
  have hlisted : (src.graph.listed .right c).isSome = true := by
    rw [← isSome_channel?, hch]
    rfl
  obtain ⟨l, hl⟩ := Option.isSome_iff_exists.mp hlisted
  obtain ⟨m, hm⟩ := List.exists_mem_of_ne_nil l (h.member hl nofun)
  obtain ⟨r, hr, -⟩ := h.wf.link_at hl hm
  cases ha : src.client? r.left with
  | none =>
      have hperson := h.person hr
      rw [ha] at hperson
      cases hperson
  | some a =>
      have hmem : (r.left, a, r.label) ∈ src.burstMembers c := by
        refine List.mem_filterMap.mpr ⟨m, by rwa [members, hl], ?_⟩
        rw [hr, Option.bind_some, ha]
        rfl
      exact List.ne_nil_of_mem hmem

/-- The members arrive. -/
theorem joined_burstMemberLines (hsrc : src.Inv none) (hch : src.channel? c = some ch)
    (hnames : ∀ x ∈ src.burstMembers c, x.2.1.Introduced) (hs : s.Inv none)
    (hnone : s.hashFindChannel ch.chname.val = none) (hknows : Knows src c ts6 s find link known) :
    Joined s ((src.burstMemberLines c me ts6 ch).foldl
      (receiveMembers cfg now find link source read (membersStart (me.sentName ts6) ch) ch) s)
      none s.nextChannel (receivedTs cfg now ch) ch.chname
      ((src.statusRoster c).map fun x => (known x.1, x.2)).reverse := by
  obtain ⟨gs, hne, hflatten, hgs, hlines, -⟩ :=
    @exists_groups_memberLines src c ch me ts6 hnames (burstMembers_ne_nil hsrc hch) known
  have hflat : (gs.map (List.map (burstArrival known ts6))).flatten =
      (src.burstMembers c).map (burstArrival known ts6) := by
    rw [← hflatten, List.map_flatten]
  have hclients : ((src.burstMembers c).map (burstArrival known ts6)).map Arrival.client =
      ((src.burstMembers c).map Prod.fst).map known := by
    simp [burstArrival, Function.comp_def]
  have hnodup : (((src.burstMembers c).map (burstArrival known ts6)).map Arrival.client).Nodup := by
    rw [hclients]
    refine (nodup_burstMembers hsrc c).map_on fun a ha a' ha' heq => ?_
    obtain ⟨x, hx, rfl⟩ := List.mem_map.mp ha
    obtain ⟨y, hy, rfl⟩ := List.mem_map.mp ha'
    exact hknows.inj x hx y hy heq
  have hrun : Joined s (((gs.map (List.map (burstArrival known ts6))).map
      (arrivalLine (membersStart (me.sentName ts6) ch))).foldl
      (receiveMembers cfg now find link source read (membersStart (me.sentName ts6) ch) ch) s)
      none s.nextChannel (receivedTs cfg now ch) ch.chname _ :=
    joined_receive_run hs hnone (by simpa using hne) ?_ (by rwa [hflat])
  · rw [hflat, List.map_map] at hrun
    rw [hlines, statusRoster_eq_burstMembers hsrc, List.map_map]
    rw [List.map_map] at hrun
    exact hrun
  · intro g hg
    obtain ⟨g', hg', rfl⟩ := List.mem_map.mp hg
    refine ⟨by simpa using hgs g' hg', fun y hy => ?_⟩
    obtain ⟨x, hx, rfl⟩ := List.mem_map.mp hy
    have hmem : x ∈ src.burstMembers c := hflatten ▸ List.mem_flatten_of_mem hg' hx
    exact known_burstArrival hknows hmem (hnames x hmem)

/-- The masks are sent in lines that are read as them. -/
theorem exists_groups_burstMaskLines (cfg : Config) (b : ℕ) (hlists : ch.ListsMade) (me : Client)
    (hme : ' ' ∉ me.id.val) (name : GlobalName) (hname : ch.chname.val = name.val) (hnow : now ≠ 0)
    {got : List (ℕ × MemberFlags)} {s₀ : Server} {d : ℕ}
    (h : Joined s₀ s none d (receivedTs cfg now ch) ch.chname got) :
    ∃ groups : List (BanType × List Ban), (∀ p ∈ groups, ∀ x ∈ p.2, x.Made) ∧
      (∀ t, masksOf groups t = ch.bans t) ∧
      (burstMaskLines me true ch).foldl (receiveBmask cfg b) s = addMasks cfg b d s groups := by
  obtain ⟨groups, hne, hmasks, hlines⟩ := exists_groups_maskLines hlists me
  have hmade : ∀ p ∈ groups, ∀ x ∈ p.2, x.Made := fun p hp x hx =>
    hlists.made p.1 x (hmasks p.1 ▸ mem_of_masksOf hp hx)
  refine ⟨groups, hmade, hmasks, ?_⟩
  obtain ⟨ch', hch', -, hts, -⟩ := h.channel
  have hstamp : (s.channel? d).map Channel.channelts = some (receivedTs cfg now ch) := by
    rw [hch']
    exact congrArg some hts
  rw [hlines]
  refine receiveBmask_run hme name hname (fun p hp => ⟨hne p hp, hmade p hp, ?_⟩) h.found hstamp
    (le_receivedTs cfg hnow ch)
  exact length_burstMaskLines hlists me true _ (hlines ▸ List.mem_map_of_mem hp)

end Main

section Example

/-- A user of the server number `1`. -/
def burstUser (link : ℕ) (local_ : Bool) : Client :=
  { Client.make "alice".toList true local_ with
    id := Buf.strlcpy "1AAAAAAAB".toList, from_ := link, servptr := link }

def burstServer : Client :=
  { Client.make "irc.example".toList false false with
    id := Buf.strlcpy "1AA".toList, servptr := 1, users := [1] }

def burstSender (bans : List Ban) : Server :=
  (((Server.init.introduce (burstUser 1 true)).makeChannel 1 "#c".toList).1.addUserToChannel 0 0
    {chflOwner}).updChannel 0 fun ch => ch.setBans bans .ban

def burstReceiver : Server :=
  (Server.init.introduce { burstServer with users := [] }).introduce (burstUser 0 false)

def burstChannel (bans : List Ban) : Channel :=
  ⟨Buf.strlcpy "#c".toList, 1, Mode.zero, bans, [], []⟩

theorem burstMembers_burstSender (bans : List Ban) :
    (burstSender bans).burstMembers 0 = [(0, burstUser 1 true, {chflOwner})] := by
  rfl

theorem inv_burstSender (bans : List Ban) : (burstSender bans).Inv none := by
  have hmade := (Inv.init.introduce (burstUser 1 true)).makeChannel 1 "#c".toList
  refine Inv.relabel ?_ (Relabels.updChannel _ 0 _)
  exact hmade.addUserToChannel (fun d hd => (Option.some.inj hd).symm) rfl rfl rfl _

/-- The lists hold one mask. -/
theorem burstPair_burstSender {x : Ban} (hx : x.Made) :
    BurstPair 1 (fun _ => some 1) 0 0 burstServer (burstSender [x]) 0 burstServer true
      (burstChannel [x]) burstReceiver fun _ => 1 where
  sender := inv_burstSender [x]
  channel := rfl
  name := ⟨⟨"#c".toList, by decide⟩, rfl⟩
  lists := by
    refine ⟨fun t y hy => ?_, fun t => ?_⟩
    · cases t with
      | ban => exact List.mem_singleton.mp hy ▸ hx
      | exception => cases hy
      | invex => cases hy
    · cases t with
      | ban => exact List.pairwise_singleton _ x
      | exception => exact List.Pairwise.nil
      | invex => exact List.Pairwise.nil
  introduced := by
    intro y hy
    obtain rfl := List.mem_singleton.mp (burstMembers_burstSender [x] ▸ hy)
    exact ⟨by decide, by decide, Or.inr (by decide)⟩
  me_blank := by decide
  receiver := (Inv.init.introduce _).introduce _
  absent := rfl
  source_eq := rfl
  remote := rfl
  clock := by decide
  knows := by
    refine ⟨fun _ _ => rfl, fun _ _ => rfl, fun y hy z hz _ => ?_⟩
    rw [burstMembers_burstSender] at hy hz
    rw [List.mem_singleton.mp hy, List.mem_singleton.mp hz]

end Example

end Server

end Unirc
