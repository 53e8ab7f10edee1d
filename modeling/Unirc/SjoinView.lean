import Unirc.ChannelView

/-!
# SJOIN on the view of a channel

`ms_sjoin` changes what a server shows of a channel as the SJOIN of the view says. Removing masks
one by one with MODE changes the record of the channel only.
-/

namespace Unirc

open MemberFlag

namespace Server

/-- The members of a channel with their flags, without the ban verdicts. -/
def memberRoster (s : Server) (c : ℕ) : List (ℕ × MemberFlags) :=
  (s.members c).filterMap fun m =>
    (s.graph.links m).map fun r => (r.left, r.label \ banCacheFlags)

section Roster

variable {s : Server} {pending : Option ℕ} {c : ℕ}

theorem Inv.link_of_mem_members (h : s.Inv pending) {m : ℕ} (hm : m ∈ s.members c) :
    ∃ r, s.graph.links m = some r ∧ r.right = c := by
  cases hl : s.graph.listed .right c with
  | none => simp [members, hl] at hm
  | some l => exact h.wf.link_at hl (by simpa [members, hl] using hm)

theorem members_updChannel (s : Server) (d : ℕ) (f : Channel → Channel) (c : ℕ) :
    (s.updChannel d f).members c = s.members c := by
  rw [members, (Relabels.updChannel s d f).shape.listed]
  rfl

theorem memberRoster_updChannel (s : Server) (d : ℕ) (f : Channel → Channel) (c : ℕ) :
    (s.updChannel d f).memberRoster c = s.memberRoster c := by
  rw [memberRoster, members_updChannel]
  rfl

theorem links_updFlags (s : Server) (m : ℕ) (f : MemberFlags → MemberFlags) (k : ℕ) :
    (s.updFlags m f).graph.links k = if k = m then
      (s.graph.links k).map fun r => { r with label := f r.label } else s.graph.links k := by
  refine (Function.update_apply _ _ _ _).trans ?_
  split
  · rename_i hk
    rw [hk]
  · rfl

/-- Changing the flags of the memberships in a list, where a second time changes nothing. -/
theorem links_foldl_updFlags {f : MemberFlags → MemberFlags} (hf : ∀ fl, f (f fl) = f fl)
    (l : List ℕ) (s : Server) (k : ℕ) :
    (l.foldl (fun s m => s.updFlags m f) s).graph.links k = if k ∈ l then
      (s.graph.links k).map fun r => { r with label := f r.label } else s.graph.links k := by
  induction l generalizing s with
  | nil => simp
  | cons m l ih =>
      rw [List.foldl_cons, ih, links_updFlags]
      by_cases hk : k = m
      · subst hk
        rw [if_pos rfl, if_pos List.mem_cons_self, Option.map_map]
        split
        · exact congrArg (fun g => (s.graph.links k).map g) (funext fun r => by simp [hf])
        · rfl
      · have hmem : k ∈ m :: l ↔ k ∈ l := by simp [hk]
        rw [if_neg hk, if_congr hmem rfl rfl]

theorem client?_foldl_updFlags (f : MemberFlags → MemberFlags) (l : List ℕ) (s : Server) (a : ℕ) :
    (l.foldl (fun s m => s.updFlags m f) s).client? a = s.client? a := by
  induction l generalizing s with
  | nil => rfl
  | cons m l ih => exact ih (s.updFlags m f)

theorem channel?_foldl_updFlags (f : MemberFlags → MemberFlags) (l : List ℕ) (s : Server) (d : ℕ) :
    (l.foldl (fun s m => s.updFlags m f) s).channel? d = s.channel? d := by
  induction l generalizing s with
  | nil => rfl
  | cons m l ih => exact ih (s.updFlags m f)

theorem channel?_removeOurModes (s : Server) (c d : ℕ) :
    (s.removeOurModes c).channel? d = s.channel? d := by
  simp only [removeOurModes, removeAMode, ourModes, List.foldl_cons, List.foldl_nil,
    channel?_foldl_updFlags]

theorem members_removeAMode (s : Server) (c : ℕ) (mask : MemberFlag) (d : ℕ) :
    (s.removeAMode c mask).members d = s.members d := by
  rw [members, (Relabels.removeAMode s c mask).shape.listed]
  rfl

theorem memberRoster_removeAMode (s : Server) (c : ℕ) (mask : MemberFlag) :
    (s.removeAMode c mask).memberRoster c =
      (s.memberRoster c).map fun x => (x.1, x.2.erase mask) := by
  rw [memberRoster, members_removeAMode, memberRoster, List.map_filterMap]
  refine List.filterMap_congr fun m hm => ?_
  rw [removeAMode, links_foldl_updFlags (fun fl => Finset.erase_idem), if_pos hm]
  cases s.graph.links m with
  | none => rfl
  | some r => simp only [Option.map_some, Finset.erase_sdiff_comm]

theorem memberRoster_removeAMode_of_disjoint (mask : MemberFlag) {d : ℕ}
    (h : ∀ m ∈ s.members d, m ∉ s.members c) :
    (s.removeAMode c mask).memberRoster d = s.memberRoster d := by
  rw [memberRoster, members_removeAMode]
  refine List.filterMap_congr fun m hm => ?_
  rw [removeAMode, links_foldl_updFlags (fun fl => Finset.erase_idem), if_neg (h m hm)]

theorem memberRoster_removeOurModes_of_ne (h : s.Inv pending) {d : ℕ} (hne : d ≠ c) :
    (s.removeOurModes c).memberRoster d = s.memberRoster d := by
  have hdisjoint : ∀ m ∈ s.members d, m ∉ s.members c := by
    intro m hm hm'
    obtain ⟨r, hr, rfl⟩ := h.link_of_mem_members hm
    obtain ⟨r', hr', rfl⟩ := h.link_of_mem_members hm'
    exact hne (congrArg Link.right (Option.some.inj (hr.symm.trans hr')))
  simp (disch := simpa only [members_removeAMode]) only [removeOurModes, ourModes,
    List.foldl_cons, List.foldl_nil, memberRoster_removeAMode_of_disjoint]

theorem memberRoster_removeOurModes (s : Server) (c : ℕ) : (s.removeOurModes c).memberRoster c =
    (s.memberRoster c).map fun x => (x.1, x.2 \ statusFlags) := by
  have hstrip (fl : MemberFlags) : ((((fl.erase chflOwner).erase chflProtected).erase
      chflChanop).erase chflHalfop).erase chflVoice = fl \ statusFlags := by
    ext f
    simp only [Finset.mem_erase, Finset.mem_sdiff, statusFlags, Finset.mem_insert,
      Finset.mem_singleton]
    tauto
  simp only [removeOurModes, ourModes, List.foldl_cons, List.foldl_nil,
    memberRoster_removeAMode, List.map_map]
  exact congrArg (fun g => (s.memberRoster c).map g) (funext fun x => by simp [hstrip])

theorem memberRoster_clearBanCache (s : Server) (c d : ℕ) :
    (s.clearBanCache c).memberRoster d = s.memberRoster d := by
  rw [memberRoster, members, (Relabels.clearBanCache s c).shape.listed]
  refine List.filterMap_congr fun m _ => ?_
  rw [links_clearBanCache]
  split
  · cases s.graph.links m with
    | none => rfl
    | some r => simp
  · rfl

theorem memberRoster_removeBanLists (s : Server) (c d : ℕ) :
    (s.removeBanLists c).memberRoster d = s.memberRoster d := by
  rw [removeBanLists, memberRoster_clearBanCache, memberRoster_updChannel]

theorem memberRoster_addUserToChannel (h : s.Inv pending)
    (hc : (s.graph.listed .right c).isSome = true) (a : ℕ) (flags : MemberFlags) (d : ℕ) :
    (s.addUserToChannel c a flags).memberRoster d =
      if d = c then (a, flags \ banCacheFlags) :: s.memberRoster d else s.memberRoster d := by
  obtain ⟨l, hl⟩ := Option.isSome_iff_exists.mp hc
  have hmembers : (s.addUserToChannel c a flags).members d =
      if d = c then s.graph.nextLink :: s.members d else s.members d := by
    by_cases hd : d = c <;>
      simp [members, addUserToChannel, LinkGraph.listed_link, Side.pick, hd, hl]
  have hold : (s.members d).filterMap (fun m => ((s.addUserToChannel c a flags).graph.links m).map
      fun r => (r.left, r.label \ banCacheFlags)) = s.memberRoster d := by
    refine List.filterMap_congr fun m hm => ?_
    obtain ⟨r, hr, -⟩ := h.link_of_mem_members hm
    rw [addUserToChannel, LinkGraph.links_link, if_neg (h.wf.fresh hr).ne]
  rw [memberRoster, hmembers]
  split
  · rw [List.filterMap_cons, hold, addUserToChannel, LinkGraph.links_link, if_pos rfl]
    rfl
  · exact hold

theorem isMember_iff_mem_roster (h : s.Inv pending) {a : ℕ} :
    s.isMember a c = true ↔ a ∈ (s.memberRoster c).map Prod.fst := by
  rw [isMember, Option.isSome_iff_exists, memberRoster, List.map_filterMap]
  constructor
  · rintro ⟨m, hm⟩
    obtain ⟨r, hr, rfl, rfl⟩ := (findChannelLink_eq_some h).mp hm
    obtain ⟨l, hl, hml⟩ := h.wf.listed_at hr .right
    have hl' : s.graph.listed .right r.right = some l := hl
    exact List.mem_filterMap.mpr ⟨m, by simpa [members, hl'] using hml, by simp [hr]⟩
  · intro hmem
    obtain ⟨m, hm, heq⟩ := List.mem_filterMap.mp hmem
    obtain ⟨r, hr, hat⟩ := h.link_of_mem_members hm
    rw [hr, Option.map_some, Option.map_some, Option.some.injEq] at heq
    exact ⟨m, (findChannelLink_eq_some h).mpr ⟨r, hr, heq, hat⟩⟩

/-- The members are users. -/
theorem isSome_client_of_mem_roster (h : s.Inv pending) {a : ℕ}
    (ha : a ∈ (s.memberRoster c).map Prod.fst) : (s.client? a).isSome = true := by
  obtain ⟨m, hm⟩ := Option.isSome_iff_exists.mp ((isMember_iff_mem_roster h).mpr ha)
  obtain ⟨r, hr, rfl, -⟩ := (findChannelLink_eq_some h).mp hm
  have hperson := h.person hr
  cases hc : s.client? r.left with
  | none => rw [hc] at hperson; cases hperson
  | some who => rfl

theorem members_eq_nil_iff (h : s.Inv pending) : s.members c = [] ↔ s.memberRoster c = [] := by
  constructor
  · intro hnil
    rw [memberRoster, hnil]
    rfl
  · intro hnil
    refine List.eq_nil_iff_forall_not_mem.mpr fun m hm => ?_
    obtain ⟨r, hr, -⟩ := h.link_of_mem_members hm
    have hmem : (r.left, r.label \ banCacheFlags) ∈ s.memberRoster c :=
      List.mem_filterMap.mpr ⟨m, hm, by rw [hr]; rfl⟩
    rw [hnil] at hmem
    cases hmem

end Roster

/-- A channel and its members are as they were. -/
def SameAt (s s' : Server) (c : ℕ) : Prop :=
  s'.channel? c = s.channel? c ∧ s'.memberRoster c = s.memberRoster c

theorem SameAt.trans {s s' s'' : Server} {c : ℕ} (h : SameAt s s' c) (h' : SameAt s' s'' c) :
    SameAt s s'' c := ⟨h'.1.trans h.1, h'.2.trans h.2⟩

/-- `s` shows a channel as `v`, with the clients, the channel names and the other channels of
`s₀`. -/
structure Shows (s₀ s : Server) (pending : Option ℕ) (c : ℕ) (v : ChannelView) : Prop where
  inv : s.Inv pending
  pending_eq : ∀ d, pending = some d → d = c
  client : ∀ a, s.client? a = s₀.client? a
  names : SameNames s₀ s
  channel : s.channel? c = some v.channel
  roster : s.memberRoster c = v.roster
  others : ∀ d, d ≠ c → SameAt s₀ s d

namespace Shows

variable {s₀ s : Server} {pending : Option ℕ} {c : ℕ} {v : ChannelView}

theorem refl (h : s.Inv pending) (hp : ∀ d, pending = some d → d = c) {ch : Channel}
    (hch : s.channel? c = some ch) : Shows s s pending c ⟨ch, s.memberRoster c⟩ :=
  ⟨h, hp, fun _ => rfl, (SameModes.refl s).toSameNames, hch, rfl,
    fun _ _ => ⟨rfl, rfl⟩⟩

theorem listed (h : Shows s₀ s pending c v) : (s.graph.listed .right c).isSome = true := by
  rw [← isSome_channel?, h.channel]
  rfl

theorem stamp (h : Shows s₀ s pending c v) (ts : ℤ) (mode : Mode) :
    Shows s₀ (s.updChannel c fun ch => { ch with channelts := ts, mode := mode }) pending c
      (v.stamp ts mode) where
  inv := h.inv.relabel (Relabels.updChannel s c _)
  pending_eq := h.pending_eq
  client := h.client
  names := h.names.trans (SameNames.updChannel s c fun _ => rfl)
  channel := by
    rw [channel?_updChannel, if_pos rfl, h.channel]
    rfl
  roster := (memberRoster_updChannel s c _ c).trans h.roster
  others := fun d hd => (h.others d hd).trans
    ⟨(channel?_updChannel ..).trans (if_neg hd), memberRoster_updChannel s c _ d⟩

theorem strip (h : Shows s₀ s pending c v) : Shows s₀ (s.removeOurModes c) pending c v.strip where
  inv := h.inv.relabel (Relabels.removeOurModes s c)
  pending_eq := h.pending_eq
  client := fun a => by
    rw [← h.client]
    simp only [Server.removeOurModes, removeAMode, ourModes, List.foldl_cons, List.foldl_nil,
      client?_foldl_updFlags]
  names := h.names.trans (SameModes.removeOurModes s c).toSameNames
  channel := (channel?_removeOurModes s c c).trans h.channel
  roster := by rw [memberRoster_removeOurModes, h.roster]; rfl
  others := fun d hd => (h.others d hd).trans
    ⟨channel?_removeOurModes s c d, memberRoster_removeOurModes_of_ne h.inv hd⟩

theorem clear (h : Shows s₀ s pending c v) : Shows s₀ (s.removeBanLists c) pending c v.clear where
  inv := h.inv.relabel (Relabels.removeBanLists s c)
  pending_eq := h.pending_eq
  client := fun a => by
    rw [← h.client, removeBanLists, (SameMembers.clearBanCache _ c).client]
    rfl
  names := h.names.trans (SameModes.removeBanLists s c).toSameNames
  channel := by
    rw [removeBanLists, channel?_clearBanCache, channel?_updChannel, if_pos rfl, h.channel]
    rfl
  roster := (memberRoster_removeBanLists s c c).trans h.roster
  others := fun d hd => (h.others d hd).trans
    ⟨by rw [removeBanLists, channel?_clearBanCache, channel?_updChannel, if_neg hd],
      memberRoster_removeBanLists s c d⟩

end Shows

theorem readPrefixes_subset (word : Str) : (readPrefixes word).1 ⊆ statusFlags := by
  have hstatus : ∀ p ∈ nickPrefixes, p.2 ∈ statusFlags := by decide
  induction word with
  | nil => exact Finset.empty_subset _
  | cons x xs ih =>
      rw [readPrefixes]
      split
      · rename_i flag hflag
        obtain ⟨l₁, l₂, hl, -⟩ := List.lookup_eq_some_iff.mp hflag
        have hmem : (x, flag) ∈ nickPrefixes := hl ▸ List.mem_append_right _ List.mem_cons_self
        exact Finset.insert_subset (hstatus (x, flag) hmem) ih
      · exact Finset.empty_subset _

theorem believedFlags_sdiff {flags : MemberFlags} (h : flags ⊆ statusFlags) (keepNewModes : Bool) :
    believedFlags keepNewModes flags \ banCacheFlags = believedFlags keepNewModes flags := by
  have hstatus : ∀ f ∈ statusFlags, f ∉ banCacheFlags := by decide
  rw [Finset.sdiff_eq_self_iff_disjoint, Finset.disjoint_left]
  intro f hf
  unfold believedFlags at hf
  split at hf
  · exact hstatus f (h hf)
  split at hf
  · cases hf
  · rw [Finset.mem_singleton.mp hf]
    decide

theorem sjoinMember_eq_some {s : Server} {find : Str → Option ℕ} {link : ℕ} {word : Str}
    {x : SjoinMember} : s.sjoinMember find link word = some x ↔
      find (readPrefixes word).2 = some x.client ∧ s.client? x.client = some x.who ∧
        (x.who.from_ = link ∧ x.who.isClient = true) ∧ x.flags = (readPrefixes word).1 := by
  obtain ⟨a, who, flags⟩ := x
  simp only [sjoinMember, Option.bind_eq_some_iff, Option.ite_none_right_eq_some,
    Option.some.injEq, SjoinMember.mk.injEq]
  constructor
  · rintro ⟨b, hb, w, hw, hperson, rfl, rfl, rfl⟩
    exact ⟨hb, hw, hperson, rfl⟩
  · rintro ⟨hb, hw, hperson, rfl⟩
    exact ⟨a, hb, who, hw, hperson, rfl, rfl, rfl⟩

end Server

/-- What a member is added as. -/
def SjoinMember.entry (keepNewModes : Bool) (x : SjoinMember) : ℕ × MemberFlags :=
  (x.client, believedFlags keepNewModes x.flags)

/-- `ms_sjoin` on the view of a channel, with the members that the line names. -/
def ChannelView.sjoinRead (v : ChannelView) (ignores : Bool) (source : Client) (hd : SjoinHeader)
    (isnew : Bool) (members : List SjoinMember) : ChannelView :=
  let verdict := tsVerdict isnew (checkBogusTs ignores hd.newts v.channel.channelts)
    v.channel.channelts
  let mode := verdict.merge hd.mode v.channel.mode
  if sjoinTooLong (sjoinRelayLength source verdict.tstosend v.channel.chname.val
      (sjoinRelayModes hd verdict mode v.channel.mode)) then v.sjoin verdict mode false []
  else v.sjoin verdict mode (source.hasId && decide (hd.nicks ≠ []))
    (members.map (SjoinMember.entry verdict.keepNewModes))

namespace Server.Shows

variable {s₀ s : Server} {pending : Option ℕ} {c : ℕ} {v : ChannelView}

theorem sjoinNick (h : Shows s₀ s pending c v) (find : Str → Option ℕ) (link : ℕ)
    (keepNewModes : Bool) (word : Str) :
    Shows s₀ (s.sjoinNick find link c keepNewModes word) pending c
      ((s₀.sjoinMember find link word).elim v fun x => v.join (x.entry keepNewModes)) := by
  have hinv := (h.inv.sjoinNick h.pending_eq h.listed find link keepNewModes word).1
  have hnames := h.names.trans
    (SameModes.sjoinNick s find link c keepNewModes word).toSameNames
  unfold Server.sjoinNick at hinv hnames ⊢
  cases hx : s₀.sjoinMember find link word with
  | none =>
      have hskip : ∀ a, find (readPrefixes word).2 = some a →
          (s.client? a).any (fun who => who.from_ == link && who.isClient) = false := by
        intro a ha
        rw [h.client]
        cases hw : s₀.client? a with
        | none => rfl
        | some who =>
            by_contra hperson
            rw [Option.any_some, Bool.not_eq_false, Bool.and_eq_true, beq_iff_eq] at hperson
            have hsome : s₀.sjoinMember find link word = some ⟨a, who, (readPrefixes word).1⟩ :=
              sjoinMember_eq_some.mpr ⟨ha, hw, hperson, rfl⟩
            rw [hx] at hsome
            cases hsome
      split
      · exact h
      · rename_i a ha
        rw [hskip a ha]
        exact h
  | some x =>
      obtain ⟨hfind, hwho, hperson, hflags⟩ := sjoinMember_eq_some.mp hx
      have hany : (s.client? x.client).any (fun who => who.from_ == link && who.isClient) =
          true := by
        rw [h.client, hwho, Option.any_some, Bool.and_eq_true, beq_iff_eq]
        exact hperson
      have hmember : s.isMember x.client c = true ↔ x.client ∈ v.roster.map Prod.fst := by
        rw [isMember_iff_mem_roster h.inv, h.roster]
      rw [hfind] at hinv hnames ⊢
      simp only [hany, if_true] at hinv hnames ⊢
      rw [Option.elim_some]
      by_cases hmem : x.client ∈ v.roster.map Prod.fst
      · rw [if_pos (hmember.mpr hmem), ChannelView.join_of_mem hmem]
        exact h
      · have hnot : ¬ s.isMember x.client c = true := fun hm => hmem (hmember.mp hm)
        rw [if_neg hnot] at hinv hnames ⊢
        rw [ChannelView.join_of_not_mem (x := x.entry keepNewModes) hmem]
        exact {
          inv := hinv
          pending_eq := h.pending_eq
          client := fun a => (client?_addUserToChannel s c _ _ a).trans (h.client a)
          names := hnames
          channel := (channel?_addUserToChannel s c _ _ c).trans h.channel
          roster := by
            rw [memberRoster_addUserToChannel h.inv h.listed, if_pos rfl,
              believedFlags_sdiff (readPrefixes_subset word), h.roster, ← hflags]
            rfl
          others := fun d hd => (h.others d hd).trans ⟨channel?_addUserToChannel s c _ _ d,
            (memberRoster_addUserToChannel h.inv h.listed ..).trans (if_neg hd)⟩ }

/-- The loop over the words. -/
theorem sjoinNicks (h : Shows s₀ s pending c v) (find : Str → Option ℕ) (link : ℕ)
    (keepNewModes : Bool) (words : List Str) :
    Shows s₀ (words.foldl (fun s word => s.sjoinNick find link c keepNewModes word) s) pending c
      (((words.filterMap (s₀.sjoinMember find link)).map
        (SjoinMember.entry keepNewModes)).foldl ChannelView.join v) := by
  induction words generalizing s v with
  | nil => exact h
  | cons word words ih =>
      have hword := h.sjoinNick find link keepNewModes word
      cases hx : s₀.sjoinMember find link word with
      | none =>
          rw [hx] at hword
          rw [List.filterMap_cons_none hx]
          exact ih hword
      | some x =>
          rw [hx] at hword
          rw [List.filterMap_cons_some hx]
          exact ih hword

section Merge

variable {cfg : Config} {find : Str → Option ℕ} {link : ℕ} {source : Client} {hd : SjoinHeader}
  {isnew : Bool} {verdict : TsVerdict}

/-- The modes and the members of a line, before the channel is settled. -/
theorem merged (h : Shows s₀ s pending c v) (find : Str → Option ℕ) (link : ℕ)
    (verdict : TsVerdict) (mode : Mode) (nicks : Str) :
    Shows s₀ ((nickWords nicks).foldl
      (fun s word => s.sjoinNick find link c verdict.keepNewModes word)
      (if verdict.keepOurModes then
        s.updChannel c fun ch => { ch with channelts := verdict.channelts, mode := mode }
      else (s.updChannel c fun ch =>
        { ch with channelts := verdict.channelts, mode := mode }).removeOurModes c)) pending c
      (v.sjoin verdict mode false
        ((s₀.sjoinMembers find link nicks).map (SjoinMember.entry verdict.keepNewModes))) := by
  have hstamp := h.stamp verdict.channelts mode
  have hbase : Shows s₀ (if verdict.keepOurModes then
      s.updChannel c fun ch => { ch with channelts := verdict.channelts, mode := mode }
      else (s.updChannel c fun ch =>
        { ch with channelts := verdict.channelts, mode := mode }).removeOurModes c) pending c
      ((if verdict.keepOurModes then v else v.strip).stamp verdict.channelts mode) := by
    split
    · exact hstamp
    · exact hstamp.strip
  exact hbase.sjoinNicks find link verdict.keepNewModes (nickWords nicks)

/-- A line acts as the SJOIN of the view; a new channel must get a member. -/
theorem msSjoinMerge (h : Shows s₀ s (if isnew then some c else none) c v)
    (hnew : isnew = true → v.channel.mode = Mode.zero ∧
      s₀.sjoinMembers find link hd.nicks ≠ []) :
    Shows s₀ (s.msSjoinMerge cfg find link source hd isnew c v.channel) none c
      (v.sjoinRead cfg.ignoreBogusTs source hd isnew (s₀.sjoinMembers find link hd.nicks)) := by
  let V := tsVerdict isnew (checkBogusTs cfg.ignoreBogusTs hd.newts v.channel.channelts)
    v.channel.channelts
  have hmerged (nicks : Str) :=
    h.merged find link V (V.merge hd.mode v.channel.mode) nicks
  unfold Server.msSjoinMerge ChannelView.sjoinRead
  extract_lets mode s₁ s₂ modes s₃
  have h₂ : Shows s₀ s₂ (if isnew then some c else none) c (v.sjoin V mode false []) := hmerged []
  have h₃ : Shows s₀ s₃ (if isnew then some c else none) c (v.sjoin V mode false
      ((s₀.sjoinMembers find link hd.nicks).map (SjoinMember.entry V.keepNewModes))) :=
    hmerged hd.nicks
  cases isnew with
  | true =>
      obtain ⟨hmode, hne⟩ := hnew rfl
      have hroom := not_sjoinTooLong_new mode source hd V V.tstosend v.channel.chname
      have hsome : s₃.members c ≠ [] := by
        rw [ne_eq, members_eq_nil_iff h₃.inv, h₃.roster]
        exact ChannelView.roster_sjoin_ne_nil (by simpa using hne)
      have hnicks : hd.nicks ≠ [] := by
        intro hnil
        rw [sjoinMembers, hnil] at hne
        exact hne rfl
      have hkeep (b : Bool) : ¬ (b = true ∧ V.keepOurModes = false) := fun hand => by cases hand.2
      rw [← hmode] at hroom
      rw [if_neg hroom, if_neg hroom, if_neg (fun hand => hsome hand.1), if_neg hnicks,
        ChannelView.sjoin_eq, if_neg (hkeep _), if_neg (hkeep _)]
      exact { h₃ with inv := h₃.inv.settle hsome, pending_eq := fun d hd => by cases hd }
  | false =>
      split
      · exact h₂
      rw [if_neg (fun hand => by cases hand.2), ChannelView.sjoin_eq]
      by_cases hnicks : hd.nicks = []
      · rw [if_pos hnicks, if_neg (fun hand => by simp [hnicks] at hand)]
        exact h₃
      · rw [if_neg hnicks]
        simp only [hnicks, not_false_eq_true, ne_eq, decide_true, Bool.and_true]
        split
        · exact h₃.clear
        · exact h₃

end Merge

end Server.Shows

namespace Server

section Found

variable {s : Server} {cfg : Config} {now : ℤ} {find : Str → Option ℕ} {link c : ℕ}
  {source : Client} {hd : SjoinHeader}

/-- The record of a channel just made. -/
def newChannel (now : ℤ) (name : Str) : Channel := ⟨Buf.strlcpy name, now, Mode.zero, [], [], []⟩

theorem sjoinRead_old {ch : Channel} (hfind : s.hashFindChannel hd.chname = some c)
    (hch : s.channel? c = some ch) : s.sjoinRead cfg now find link source hd =
      s.msSjoinMerge cfg find link source hd false c ch := by
  rw [sjoinRead, findOrMake, hfind]
  dsimp only
  rw [hch]

theorem sjoinRead_new (hfind : s.hashFindChannel hd.chname = none) :
    s.sjoinRead cfg now find link source hd = (s.makeChannel now hd.chname).1.msSjoinMerge cfg find
      link source hd true s.nextChannel (newChannel now hd.chname) := by
  rw [sjoinRead, findOrMake, hfind]
  dsimp only
  rw [channel?_makeChannel]
  rfl

theorem shows_makeChannel (h : s.Inv none) (now : ℤ) (name : Str) :
    Shows (s.makeChannel now name).1 (s.makeChannel now name).1 (some s.nextChannel) s.nextChannel
      ⟨newChannel now name, []⟩ := by
  have hroster : (s.makeChannel now name).1.memberRoster s.nextChannel = [] := by
    have hlisted := listed_makeChannel s now name
    rw [show (s.makeChannel now name).2 = s.nextChannel from rfl] at hlisted
    rw [memberRoster, members, hlisted]
    rfl
  have hshows := Shows.refl (h.makeChannel now name) (fun d hd => (Option.some.inj hd).symm)
    (channel?_makeChannel s now name)
  rwa [show (s.makeChannel now name).2 = s.nextChannel from rfl, hroster] at hshows

theorem hashFindChannel_makeChannel {name : Str} (hlen : name.length ≤ CHANNELLEN) :
    (s.makeChannel now name).1.hashFindChannel name = some s.nextChannel := by
  have hname : (Buf.strlcpy name : Buf (CHANNELLEN + 1)).val = name := List.take_of_length_le hlen
  have hmatch : ((s.makeChannel now name).1.channel? s.nextChannel).any
      (fun ch => !irccmp ch.chname.val name) = true := by
    rw [show s.nextChannel = (s.makeChannel now name).2 from rfl, channel?_makeChannel]
    simp only [Option.any_some, hname, irccmp_self, Bool.not_false]
  exact List.find?_cons_of_pos hmatch

/-- Names that differ in case only find the same channel. -/
theorem hashFindChannel_congr (s : Server) {name name' : Str} (h : irccmp name name' = false) :
    s.hashFindChannel name = s.hashFindChannel name' := by
  have hcase := (irccmp_eq_false_iff _ _).mp h
  refine List.find?_congr fun d _ => ?_
  cases s.channel? d with
  | none => rfl
  | some ch => simp only [Option.any_some, irccmp, hcase]

/-- Making a channel and destroying it change no other channel. -/
theorem sameAt_setRight {s t : Server} {d : ℕ} {x : Option Channel}
    (h : t.graph = s.graph.setRight c x) (hne : d ≠ c) :
    SameAt s t d := by
  simp only [SameAt, channel?, memberRoster, members, LinkGraph.listed, h, LinkGraph.setRight,
    Function.update_of_ne hne, and_self]

theorem ne_nextChannel (h : s.Inv none) (hc : c ∈ s.globalChannelList) : c ≠ s.nextChannel :=
  (h.fresh ((h.list _).mp hc)).ne

theorem hashFindChannel_makeChannel_of_ne (h : s.Inv none) {name name' : Str}
    (hlen : name.length ≤ CHANNELLEN) (hne : irccmp name name' = true) :
    (s.makeChannel now name).1.hashFindChannel name' = s.hashFindChannel name' := by
  have hname : (Buf.strlcpy name : Buf (CHANNELLEN + 1)).val = name := List.take_of_length_le hlen
  refine (List.find?_cons_of_neg ?_).trans (List.find?_congr fun d hd => ?_)
  · rw [show s.nextChannel = (s.makeChannel now name).2 from rfl, channel?_makeChannel]
    simp [hname, hne]
  · rw [(sameAt_setRight (t := (s.makeChannel now name).1) rfl (ne_nextChannel h hd)).1]

/-- A new channel with nobody in the line is not kept, and nothing has changed. -/
theorem sjoinRead_nobody (h : s.Inv none) (hnone : s.hashFindChannel hd.chname = none)
    (hmembers : s.sjoinMembers find link hd.nicks = []) :
    let s' := s.sjoinRead cfg now find link source hd
    (∀ a, s'.client? a = s.client? a) ∧ (∀ name, s'.hashFindChannel name = s.hashFindChannel name) ∧
      ∀ d ∈ s.globalChannelList, SameAt s s' d := by
  have hmade := shows_makeChannel h now hd.chname
  have hmerged := hmade.merged find link (tsVerdict true (checkBogusTs cfg.ignoreBogusTs hd.newts
    now) now) ((tsVerdict true (checkBogusTs cfg.ignoreBogusTs hd.newts now) now).merge hd.mode
      Mode.zero) hd.nicks
  have hnobody : (s.makeChannel now hd.chname).1.sjoinMembers find link hd.nicks = [] := hmembers
  rw [hnobody, List.map_nil] at hmerged
  have hroom := not_sjoinTooLong_new ((tsVerdict true (checkBogusTs cfg.ignoreBogusTs hd.newts now)
    now).merge hd.mode Mode.zero) source hd (tsVerdict true
    (checkBogusTs cfg.ignoreBogusTs hd.newts now) now) (tsVerdict true
    (checkBogusTs cfg.ignoreBogusTs hd.newts now) now).tstosend (Buf.strlcpy hd.chname)
  rw [sjoinRead_new hnone]
  dsimp only
  unfold Server.msSjoinMerge
  extract_lets V mode s₁ s₂ modes s₃
  change Shows _ s₃ _ _ _ at hmerged
  change ¬ sjoinTooLong (sjoinRelayLength source V.tstosend (newChannel now hd.chname).chname.val
    modes) at hroom
  have hnil : s₃.members s.nextChannel = [] := by
    rw [members_eq_nil_iff hmerged.inv, hmerged.roster, ChannelView.sjoin]
    rfl
  rw [if_neg hroom, if_pos ⟨hnil, rfl⟩]
  have hsame : ∀ d ∈ s.globalChannelList, SameAt s (s₃.destroyChannel s.nextChannel) d := by
    intro d hd
    have hne := ne_nextChannel h hd
    exact ((sameAt_setRight rfl hne).trans (hmerged.others d hne)).trans (sameAt_setRight rfl hne)
  have hlist : s₃.globalChannelList = s.nextChannel :: s.globalChannelList := hmerged.names.list
  refine ⟨hmerged.client, fun name => ?_, hsame⟩
  simp only [hashFindChannel, destroyChannel, hlist, List.erase_cons_head]
  exact List.find?_congr fun d hd => by rw [← (hsame d hd).1]; rfl

end Found

end Server

end Unirc
