import Unirc.SjoinView

/-!
# Servers that take the same SJOINs

Two servers that hold the same channel and know the same users hold the same channel after each
SJOIN that both of them get, and after any number of them in one order, whatever SJOINs for other
channels either server gets in between.
-/

namespace Unirc

theorem length_chname_parseSjoin {parv : List Str} {hd : SjoinHeader}
    (h : parseSjoin parv = some hd) : hd.chname.length ≤ CHANNELLEN := by
  unfold parseSjoin at h
  split at h
  · rename_i chname _ _ _
    split_ifs at h with _ hcheck
    split at h
    · cases h
    · obtain rfl := Option.some.inj h
      rw [Bool.not_eq_false] at hcheck
      cases chname with
      | nil => exact Nat.zero_le _
      | cons c cs => simpa [checkChannelName] using (Bool.and_eq_true_iff.mp hcheck).2
  · cases h

namespace ChannelView

variable {known : ℕ → ℕ} {people : Set ℕ} {v w : ChannelView} {ignores : Bool}
  {source source' : Client} {hd : SjoinHeader} {members members' : List SjoinMember}

theorem map_entry (h : members'.map (fun m => (m.client, m.flags)) =
    members.map fun m => (known m.client, m.flags)) (keepNewModes : Bool) :
    members'.map (SjoinMember.entry keepNewModes) =
      (members.map (SjoinMember.entry keepNewModes)).map fun x => (known x.1, x.2) := by
  have hmap := congrArg (List.map fun p => (p.1, believedFlags keepNewModes p.2)) h
  rw [List.map_map, List.map_map] at hmap
  rw [List.map_map]
  exact hmap

/-- On a channel that both servers have. -/
theorem Same.sjoinRead (h : Same known v w) (hinj : Set.InjOn known people)
    (hv : ∀ a ∈ v.roster.map Prod.fst, a ∈ people) (hclient : ∀ m ∈ members, m.client ∈ people)
    (hmembers : members'.map (fun m => (m.client, m.flags)) =
      members.map fun m => (known m.client, m.flags))
    (hname : source'.idOrName = source.idOrName) (hid : source'.hasId = source.hasId) :
    Same known (v.sjoinRead ignores source hd false members)
      (w.sjoinRead ignores source' hd false members') := by
  have hlen (ts : ℤ) (chname : Str) (modes : Str × Str) :
      sjoinRelayLength source' ts chname modes = sjoinRelayLength source ts chname modes := by
    rw [sjoinRelayLength, hname, sjoinRelayLength]
  unfold ChannelView.sjoinRead
  rw [h.channel]
  simp only [hlen, hid, map_entry hmembers]
  split_ifs
  · exact h.sjoin hinj hv (fun x (hx : x ∈ []) => absurd hx List.not_mem_nil) _ _ _
  · refine h.sjoin hinj hv (fun x hx => ?_) _ _ _
    obtain ⟨m, hm, rfl⟩ := List.mem_map.mp hx
    exact hclient m hm

/-- A new channel does not show when it was made. -/
theorem sjoinRead_newChannel {now : ℤ} (hnow : now ≠ 0) (name : Str) :
    (⟨Server.newChannel now name, []⟩ : ChannelView).sjoinRead ignores source hd true members =
      (⟨Server.newChannel 0 name, []⟩ : ChannelView).sjoin
        (tsVerdict true (checkBogusTs ignores hd.newts 1) 1) (hd.mode.joinSame Mode.zero) false
          (members.map (SjoinMember.entry true)) := by
  have hts : checkBogusTs ignores hd.newts now = checkBogusTs ignores hd.newts 1 := by
    simp [checkBogusTs, hnow]
  have hroom := not_sjoinTooLong_new (hd.mode.joinSame Mode.zero) source hd
    (tsVerdict true (checkBogusTs ignores hd.newts now) now) (checkBogusTs ignores hd.newts now)
    (Buf.strlcpy name)
  rw [ChannelView.sjoinRead]
  refine (if_neg hroom).trans ?_
  rw [sjoin_eq, if_neg (fun hand => by cases hand.2)]
  simp only [Server.newChannel, hts]
  rfl

end ChannelView

/-- An SJOIN for a channel. -/
def SjoinMessage.names (name : Str) (x : SjoinMessage) : Bool :=
  (parseSjoin x.parv).any fun hd => !irccmp hd.chname name

namespace Server

/-- Both servers have no channel of a name, or the same one. -/
def SameChannel (known : ℕ → ℕ) (name : Str) (s t : Server) : Prop :=
  (s.hashFindChannel name = none ∧ t.hashFindChannel name = none) ∨
    ∃ c d ch ch', s.hashFindChannel name = some c ∧ t.hashFindChannel name = some d ∧
      s.channel? c = some ch ∧ t.channel? d = some ch' ∧
      ChannelView.Same known ⟨ch, s.memberRoster c⟩ ⟨ch', t.memberRoster d⟩

/-- Two servers get one SJOIN, of the same server, and find the same users under the names in
it. -/
structure SameSjoin (known : ℕ → ℕ) (s t : Server) (x y : SjoinMessage) : Prop where
  parv : y.parv = x.parv
  clocks : x.now ≠ 0 ∧ y.now ≠ 0
  source : ∃ a b, s.client? x.source = some a ∧ t.client? y.source = some b ∧
    b.isClient = a.isClient ∧ b.idOrName = a.idOrName ∧ b.hasId = a.hasId
  users : ∀ hd, parseSjoin x.parv = some hd → ∀ word ∈ nickWords hd.nicks,
    (t.sjoinMember y.find y.link word).map (fun m => (m.client, m.flags)) =
      (s.sjoinMember x.find x.link word).map fun m => (known m.client, m.flags)

variable {known : ℕ → ℕ} {name : Str} {s t : Server} {x y : SjoinMessage} {cfg cfg' : Config}

theorem map_sjoinMembers {find find' : Str → Option ℕ} {link link' : ℕ} {nicks : Str}
    (h : ∀ word ∈ nickWords nicks,
      (t.sjoinMember find' link' word).map (fun m => (m.client, m.flags)) =
        (s.sjoinMember find link word).map fun m => (known m.client, m.flags)) :
    (t.sjoinMembers find' link' nicks).map (fun m => (m.client, m.flags)) =
      (s.sjoinMembers find link nicks).map fun m => (known m.client, m.flags) := by
  rw [sjoinMembers, sjoinMembers, List.map_filterMap, List.map_filterMap]
  exact List.filterMap_congr h

theorem isSome_client_of_mem_sjoinMembers {find : Str → Option ℕ} {link : ℕ} {nicks : Str}
    {m : SjoinMember} (hm : m ∈ s.sjoinMembers find link nicks) :
    (s.client? m.client).isSome = true := by
  obtain ⟨word, -, hword⟩ := List.mem_filterMap.mp hm
  exact Option.isSome_of_eq_some (sjoinMember_eq_some.mp hword).2.1

theorem SameChannel.congr (h : SameChannel known name s t) {name' : Str}
    (hname : irccmp name name' = false) : SameChannel known name' s t := by
  rw [SameChannel] at h ⊢
  rwa [← s.hashFindChannel_congr hname, ← t.hashFindChannel_congr hname]

theorem exists_channel_of_hashFindChannel {c : ℕ} (h : s.hashFindChannel name = some c) :
    ∃ ch, s.channel? c = some ch := by
  have hany := List.find?_some h
  cases hch : s.channel? c with
  | none => simp [hch] at hany
  | some ch => exact ⟨ch, rfl⟩

/-- An SJOIN that makes a channel. -/
theorem shows_sjoinRead_new (h : s.Inv none) (cfg : Config) (now : ℤ) {find : Str → Option ℕ}
    {link : ℕ} (source : Client) {hd : SjoinHeader} (hnone : s.hashFindChannel hd.chname = none)
    (hne : s.sjoinMembers find link hd.nicks ≠ []) :
    Shows (s.makeChannel now hd.chname).1 (s.sjoinRead cfg now find link source hd) none
      s.nextChannel ((⟨newChannel now hd.chname, []⟩ : ChannelView).sjoinRead cfg.ignoreBogusTs
        source hd true (s.sjoinMembers find link hd.nicks)) := by
  rw [sjoinRead_new hnone]
  have hmembers : (s.makeChannel now hd.chname).1.sjoinMembers find link hd.nicks =
      s.sjoinMembers find link hd.nicks := rfl
  have hmade : Shows _ _ (if true = true then some s.nextChannel else none) _ _ :=
    shows_makeChannel h now hd.chname
  rw [← hmembers] at hne
  have hmerged : Shows _ ((s.makeChannel now hd.chname).1.msSjoinMerge cfg find link source hd true
      s.nextChannel (newChannel now hd.chname)) none s.nextChannel _ :=
    hmade.msSjoinMerge fun _ => ⟨rfl, hne⟩
  rwa [hmembers] at hmerged

theorem shows_sjoinRead_old (h : s.Inv none) (cfg : Config) (now : ℤ) (find : Str → Option ℕ)
    (link : ℕ) (source : Client) {hd : SjoinHeader} {c : ℕ} {ch : Channel}
    (hc : s.hashFindChannel hd.chname = some c) (hch : s.channel? c = some ch) :
    Shows s (s.sjoinRead cfg now find link source hd) none c
      ((⟨ch, s.memberRoster c⟩ : ChannelView).sjoinRead cfg.ignoreBogusTs source hd false
        (s.sjoinMembers find link hd.nicks)) := by
  have hshown : Shows s s (if false = true then some c else none) c ⟨ch, s.memberRoster c⟩ :=
    Shows.refl h (fun d hd => by cases hd) hch
  rw [sjoinRead_old hc hch]
  exact hshown.msSjoinMerge fun hnew => by cases hnew

/-- Both servers show the same channel under the name. -/
theorem SameChannel.of_shows {s₀ t₀ : Server} {c d : ℕ} {v w : ChannelView}
    (hs : Shows s₀ s none c v) (ht : Shows t₀ t none d w) (hc : s₀.hashFindChannel name = some c)
    (hd : t₀.hashFindChannel name = some d) (h : ChannelView.Same known v w) :
    SameChannel known name s t := by
  refine Or.inr ⟨c, d, v.channel, w.channel, (hs.names.hashFindChannel name).trans hc,
    (ht.names.hashFindChannel name).trans hd, hs.channel, ht.channel, ?_⟩
  rw [hs.roster, ht.roster]
  exact h

/-- What is found under a name is as it was. -/
structure Untouched (name : Str) (s s' : Server) : Prop where
  find : s'.hashFindChannel name = s.hashFindChannel name
  same : ∀ c, s.hashFindChannel name = some c → SameAt s s' c

theorem Untouched.refl (name : Str) (s : Server) : Untouched name s s :=
  ⟨rfl, fun _ _ => ⟨rfl, rfl⟩⟩

theorem SameChannel.untouched {s' t' : Server} (h : SameChannel known name s t)
    (hs : Untouched name s s') (ht : Untouched name t t') : SameChannel known name s' t' := by
  rcases h with ⟨hs₀, ht₀⟩ | ⟨c, d, ch, ch', hc, hd, hch, hch', hsame⟩
  · exact Or.inl ⟨hs.find.trans hs₀, ht.find.trans ht₀⟩
  · obtain ⟨hc', hroster⟩ := hs.same c hc
    obtain ⟨hd', hroster'⟩ := ht.same d hd
    exact Or.inr ⟨c, d, ch, ch', hs.find.trans hc, ht.find.trans hd, hc'.trans hch,
      hd'.trans hch', hroster ▸ hroster' ▸ hsame⟩

/-- An SJOIN changes no client and no other channel. -/
theorem untouched_sjoinRead (h : s.Inv none) (cfg : Config) (now : ℤ) (find : Str → Option ℕ)
    (link : ℕ) (source : Client) {hd : SjoinHeader} (hlen : hd.chname.length ≤ CHANNELLEN) :
    (∀ a, (s.sjoinRead cfg now find link source hd).client? a = s.client? a) ∧
      ∀ name, irccmp hd.chname name = true →
        Untouched name s (s.sjoinRead cfg now find link source hd) := by
  cases hc : s.hashFindChannel hd.chname with
  | some c =>
      obtain ⟨ch, hch⟩ := exists_channel_of_hashFindChannel hc
      have hshows := shows_sjoinRead_old h cfg now find link source hc hch
      refine ⟨hshows.client, fun name hne => ⟨hshows.names.hashFindChannel name, fun d hd => ?_⟩⟩
      refine hshows.others d ?_
      rintro rfl
      have hany := List.find?_some hc
      have hany' := List.find?_some hd
      simp only [hch, Option.any_some, Bool.not_eq_true', irccmp_eq_false_iff] at hany hany'
      rw [(irccmp_eq_false_iff _ _).mpr (hany.symm.trans hany')] at hne
      cases hne
  | none =>
      by_cases hmembers : s.sjoinMembers find link hd.nicks = []
      · obtain ⟨hclient, hfind, hsame⟩ := sjoinRead_nobody h hc hmembers
        exact ⟨hclient, fun name _ =>
          ⟨hfind name, fun d hd => hsame d (List.mem_of_find?_eq_some hd)⟩⟩
      · have hshows := shows_sjoinRead_new h cfg now source hc hmembers
        refine ⟨hshows.client, fun name hne => ⟨(hshows.names.hashFindChannel name).trans
          (hashFindChannel_makeChannel_of_ne h hlen hne), fun d hd => ?_⟩⟩
        have hd' := ne_nextChannel h (List.mem_of_find?_eq_some hd)
        exact (sameAt_setRight rfl hd').trans (hshows.others d hd')

theorem untouched_receive (h : s.Inv none) (cfg : Config) (name : Str) (x : SjoinMessage) :
    (∀ a, (s.receive cfg x).client? a = s.client? a) ∧
      (x.names name = false → Untouched name s (s.receive cfg x)) := by
  unfold Server.receive Server.msSjoin
  split
  · rename_i source hd _ hparse
    split
    · exact ⟨fun _ => rfl, fun _ => Untouched.refl name s⟩
    · obtain ⟨hclient, hother⟩ := untouched_sjoinRead h cfg x.now x.find x.link source
        (length_chname_parseSjoin hparse)
      exact ⟨hclient, fun hname => hother name (by simpa [SjoinMessage.names, hparse] using hname)⟩
  · exact ⟨fun _ => rfl, fun _ => Untouched.refl name s⟩

theorem SameSjoin.congr {s' t' : Server} (hs : ∀ a, s'.client? a = s.client? a)
    (ht : ∀ a, t'.client? a = t.client? a) (hx : SameSjoin known s t x y) :
    SameSjoin known s' t' x y := by
  obtain ⟨a, b, ha, hb, hsame⟩ := hx.source
  refine ⟨hx.parv, hx.clocks, ⟨a, b, (hs _).trans ha, (ht _).trans hb, hsame⟩, ?_⟩
  simpa only [sjoinMember, hs, ht] using hx.users

section Step

variable (hs : s.Inv none) (ht : t.Inv none) (hcfg : cfg'.ignoreBogusTs = cfg.ignoreBogusTs)
  (hinj : Set.InjOn known {a | (s.client? a).isSome = true})

include hs ht hcfg hinj

theorem SameChannel.sjoinRead {find find' : Str → Option ℕ} {link link' : ℕ} {now now' : ℤ}
    {a b : Client} {hd : SjoinHeader} (h : SameChannel known hd.chname s t)
    (hlen : hd.chname.length ≤ CHANNELLEN) (hnow : now ≠ 0) (hnow' : now' ≠ 0)
    (hname : b.idOrName = a.idOrName) (hid : b.hasId = a.hasId)
    (hmembers : (t.sjoinMembers find' link' hd.nicks).map (fun m => (m.client, m.flags)) =
      (s.sjoinMembers find link hd.nicks).map fun m => (known m.client, m.flags)) :
    SameChannel known hd.chname (s.sjoinRead cfg now find link a hd)
      (t.sjoinRead cfg' now' find' link' b hd) := by
  have hclient : ∀ m ∈ s.sjoinMembers find link hd.nicks,
      m.client ∈ {a | (s.client? a).isSome = true} :=
    fun m hm => isSome_client_of_mem_sjoinMembers hm
  rcases h with ⟨hs₀, ht₀⟩ | ⟨c, d, ch, ch', hc, hd', hch, hch', hsame⟩
  · by_cases hne : s.sjoinMembers find link hd.nicks = []
    · have hne' : t.sjoinMembers find' link' hd.nicks = [] := by simpa [hne] using hmembers
      exact Or.inl ⟨((sjoinRead_nobody hs hs₀ hne).2.1 _).trans hs₀,
        ((sjoinRead_nobody ht ht₀ hne').2.1 _).trans ht₀⟩
    · have hne' : t.sjoinMembers find' link' hd.nicks ≠ [] := fun hnil => by
        rw [hnil, List.map_nil, eq_comm, List.map_eq_nil_iff] at hmembers
        exact hne hmembers
      refine SameChannel.of_shows (shows_sjoinRead_new hs cfg now a hs₀ hne)
        (shows_sjoinRead_new ht cfg' now' b ht₀ hne') (hashFindChannel_makeChannel hlen)
        (hashFindChannel_makeChannel hlen) ?_
      rw [ChannelView.sjoinRead_newChannel hnow, ChannelView.sjoinRead_newChannel hnow', hcfg,
        ChannelView.map_entry hmembers]
      refine ChannelView.Same.sjoin ⟨rfl, List.Perm.refl _⟩ hinj
        (fun a ha => absurd ha List.not_mem_nil) (fun x hx => ?_) _ _ _
      obtain ⟨m, hm, rfl⟩ := List.mem_map.mp hx
      exact hclient m hm
  · refine SameChannel.of_shows (shows_sjoinRead_old hs cfg now find link a hc hch)
      (shows_sjoinRead_old ht cfg' now' find' link' b hd' hch') hc hd' ?_
    rw [hcfg]
    exact hsame.sjoinRead hinj (fun a ha => isSome_client_of_mem_roster hs ha) hclient hmembers
      hname hid

/-- One SJOIN that both servers get. -/
theorem SameChannel.receive (h : SameChannel known name s t) (hx : SameSjoin known s t x y)
    (hnames : x.names name = true) :
    SameChannel known name (s.receive cfg x) (t.receive cfg' y) := by
  obtain ⟨a, b, ha, hb, hperson, hname, hid⟩ := hx.source
  obtain ⟨hd, hparse, hnamed⟩ := (Option.any_eq_true _ _).mp hnames
  rw [Bool.not_eq_true'] at hnamed
  have hread := (h.congr ((irccmp_eq_false_iff _ _).mpr
    ((irccmp_eq_false_iff _ _).mp hnamed).symm)).sjoinRead hs ht hcfg hinj
    (length_chname_parseSjoin hparse) hx.clocks.1 hx.clocks.2 hname hid
    (map_sjoinMembers (hx.users hd hparse))
  unfold Server.receive Server.msSjoin
  rw [ha, hb, hx.parv, hparse]
  dsimp only
  rw [hperson]
  split
  · exact h
  · exact hread.congr hnamed

omit hs hcfg hinj in
/-- SJOINs for other channels. -/
theorem SameChannel.skips (h : SameChannel known name s t) {l : List SjoinMessage}
    (hl : ∀ y ∈ l, ¬ y.names name = true) :
    (l.foldl (Server.receive cfg') t).Inv none ∧
      (∀ a, (l.foldl (Server.receive cfg') t).client? a = t.client? a) ∧
        SameChannel known name s (l.foldl (Server.receive cfg') t) := by
  induction l generalizing t with
  | nil => exact ⟨ht, fun _ => rfl, h⟩
  | cons y l ih =>
      obtain ⟨hclient, hother⟩ := untouched_receive ht cfg' name y
      obtain ⟨hinv, hclient', hsame⟩ := ih ht.msSjoin
        (h.untouched (Untouched.refl name s) (hother (by simpa using hl y List.mem_cons_self)))
        fun y' hy' => hl y' (List.mem_cons_of_mem y hy')
      exact ⟨hinv, fun a => (hclient' a).trans (hclient a), hsame⟩

/-- Any number of SJOINs, where those for the channel come in one order. -/
theorem sameChannel_sjoins (h : SameChannel known name s t) {xs ys : List SjoinMessage}
    (hsjoins : List.Forall₂ (SameSjoin known s t) (xs.filter (SjoinMessage.names name))
      (ys.filter (SjoinMessage.names name))) :
    SameChannel known name (xs.foldl (receive cfg) s) (ys.foldl (receive cfg') t) := by
  induction xs generalizing s t ys with
  | nil =>
      rw [List.filter_nil, List.forall₂_nil_left_iff, List.filter_eq_nil_iff] at hsjoins
      exact (h.skips ht hsjoins).2.2
  | cons x xs ih =>
      obtain ⟨hclient, hother⟩ := untouched_receive hs cfg name x
      have hinj' : Set.InjOn known {a | ((s.receive cfg x).client? a).isSome = true} := by
        simpa only [hclient] using hinj
      cases hx : x.names name with
      | false =>
          rw [List.filter_cons_of_neg (by simp [hx])] at hsjoins
          exact ih hs.msSjoin ht hinj' (h.untouched (hother hx) (Untouched.refl name t))
            (hsjoins.imp fun _ _ => SameSjoin.congr hclient fun _ => rfl)
      | true =>
          rw [List.filter_cons_of_pos hx] at hsjoins
          obtain ⟨y, ys', hxy, hrest, hys⟩ := List.forall₂_cons_left_iff.mp hsjoins
          obtain ⟨l₁, l₂, rfl, hl₁, -, rfl⟩ := List.filter_eq_cons_iff.mp hys
          obtain ⟨hinv, hclient₁, hsame⟩ := @SameChannel.skips _ _ _ _ cfg' ht h _ hl₁
          have hxy' := hxy.congr (fun _ => rfl) hclient₁
          obtain ⟨hclient₂, -⟩ := untouched_receive hinv cfg' name y
          rw [List.foldl_append]
          exact ih hs.msSjoin hinv.msSjoin hinj' (hsame.receive hs hinv hcfg hinj hxy' hx)
            (hrest.imp fun _ _ => SameSjoin.congr hclient
              fun a => (hclient₂ a).trans (hclient₁ a))

end Step

/-- A server behind the link 0 and two of its users. -/
def leafPair (n n' : Str) : Server :=
  ((init.introduce (Client.make ['s'] false false)).introduce
    (Client.make n true false)).introduce (Client.make n' true false)

theorem inv_leafPair (n n' : Str) : (leafPair n n').Inv none :=
  ((Inv.init.introduce _).introduce _).introduce _

def leafSjoin (now : ℤ) (b c : ℕ) (parv : List Str) : SjoinMessage :=
  ⟨now, fun n => if n = ['b'] then some b else if n = ['c'] then some c else none, 0, 0, parv⟩

/-- A channel is made and then lost to an older one, with the two users the other way round. One
of the servers gets an SJOIN for another channel in between. -/
theorem sameChannel_sjoins_leafPair :
    let first := ["1700000000".toList, "#x".toList, "+nl".toList, ['9'], "@b +c".toList]
    let other := ["1600000000".toList, "#y".toList, ['+'], "@b".toList]
    let last := ["1600000000".toList, "#X".toList, "+s".toList, "@c b".toList]
    SameChannel (Equiv.swap 1 2) "#x".toList
      (([first, other, last].map (leafSjoin 1700000100 1 2)).foldl (receive Config.default)
        (leafPair ['b'] ['c']))
      (([first, last].map (leafSjoin 1700000200 2 1)).foldl (receive Config.default)
        (leafPair ['c'] ['b'])) := by
  refine sameChannel_sjoins (inv_leafPair _ _) (inv_leafPair _ _) rfl
    (Equiv.injective _).injOn (Or.inl ⟨rfl, rfl⟩) ?_
  refine List.Forall₂.cons ?_ (List.Forall₂.cons ?_ List.Forall₂.nil)
  all_goals
    refine ⟨rfl, by decide, ⟨_, _, rfl, rfl, rfl, rfl, rfl⟩, fun hd h => ?_⟩
    obtain rfl := Option.some.inj h
    decide

end Server

end Unirc
