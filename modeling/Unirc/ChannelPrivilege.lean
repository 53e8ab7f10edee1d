import Unirc.BanCache
import Unirc.Bmask
import Unirc.SetChannelMode

/-!
# Channel privileges

What the letters of a MODE command may do to the members of a channel, and what a command of a
local user below owner leaves alone.
-/

namespace Unirc

open MemberFlag SimpleMode

namespace Server

/-- The status flags of a user in a channel; none where the user is no member. -/
def statusOf (s : Server) (a c : ℕ) : MemberFlags :=
  (s.findChannelLink a c).elim ∅ s.flags ∩ statusFlags

/-- Neither the clients and memberships nor the status of a member differ. -/
structure KeepsStatus (s s' : Server) : Prop where
  relabels : Relabels s s'
  flags : ∀ m, s'.flags m ∩ statusFlags = s.flags m ∩ statusFlags

namespace KeepsStatus

variable {s s' s'' : Server}

theorem refl (s : Server) : KeepsStatus s s := ⟨Relabels.refl s, fun _ => rfl⟩

theorem trans (h : KeepsStatus s s') (h' : KeepsStatus s' s'') : KeepsStatus s s'' :=
  ⟨h.relabels.trans h'.relabels, fun m => (h'.flags m).trans (h.flags m)⟩

theorem foldl {α : Type*} (f : Server → α → Server) (hf : ∀ s x, KeepsStatus s (f s x))
    (l : List α) (s : Server) : KeepsStatus s (l.foldl f s) := by
  induction l generalizing s with
  | nil => exact refl s
  | cons x l ih => exact (hf s x).trans (ih (f s x))

theorem updChannel (s : Server) (c : ℕ) (f : Channel → Channel) :
    KeepsStatus s (s.updChannel c f) := ⟨Relabels.updChannel s c f, fun _ => rfl⟩

theorem clearBanCache (s : Server) (c : ℕ) : KeepsStatus s (s.clearBanCache c) := by
  refine foldl _ (fun t m => ?_) _ s
  split
  · refine ⟨Relabels.updFlags t m _, fun k => ?_⟩
    simp only [Server.flags, Server.updFlags, LinkGraph.mapLabel, Function.update_apply]
    split
    · rename_i hk
      subst hk
      cases t.graph.links k with
      | none => rfl
      | some r =>
          have hdisjoint : ∀ f ∈ statusFlags, f ∉ banCacheFlags := by decide
          ext f
          have := hdisjoint f
          simp only [Option.map_some, Option.elim_some, Finset.mem_inter, Finset.mem_sdiff]
          tauto
    · rfl
  · exact refl t

theorem addId (cfg : Config) (s : Server) (a c : ℕ) (m : Str) (type : BanType) :
    KeepsStatus s (s.addId cfg a c m type).1 := by
  unfold Server.addId
  split
  · split
    · exact refl s
    · extract_lets ban t
      have ht : KeepsStatus s t := by
        dsimp only [t]
        split
        · exact refl s
        · exact clearBanCache s c
      split
      · exact ht
      · exact ht.trans (updChannel t c _)
  · exact refl s

theorem delId (s : Server) (c : ℕ) (m : Str) (type : BanType) :
    KeepsStatus s (s.delId c m type).1 := by
  unfold Server.delId
  split
  · extract_lets ban t
    have ht : KeepsStatus s t := by
      dsimp only [t]
      split
      · exact refl s
      · exact clearBanCache s c
    split
    · exact ht.trans (updChannel t c _)
    · exact ht
  · exact refl s

theorem statusOf (h : KeepsStatus s s') (a c : ℕ) : s'.statusOf a c = s.statusOf a c := by
  rw [Server.statusOf, h.relabels.findChannelLink, Server.statusOf]
  cases s.findChannelLink a c with
  | none => rfl
  | some m => exact h.flags m

end KeepsStatus

section Links

variable {s : Server} {pending : Option ℕ}

theorem findChannelLink_eq_some (h : s.Inv pending) {a c m : ℕ} :
    s.findChannelLink a c = some m ↔ ∃ r, s.graph.links m = some r ∧ r.left = a ∧ r.right = c := by
  constructor
  · intro hm
    unfold findChannelLink at hm
    split at hm
    · exact LinkGraph.WF.between_eq_some h.wf hm
    · cases hm
  · rintro ⟨r, hr, hleft, hright⟩
    have hperson := h.person hr
    rw [hleft] at hperson
    rw [findChannelLink, if_pos hperson]
    cases hbetween : s.graph.between a c with
    | none => exact absurd hright (LinkGraph.WF.between_eq_none h.wf hbetween hr hleft)
    | some k =>
        obtain ⟨q, hq, hqleft, hqright⟩ := LinkGraph.WF.between_eq_some h.wf hbetween
        rw [h.simple k m q r hq hr (hqleft.trans hleft.symm) (hqright.trans hright.symm)]

theorem statusOf_updFlags_of_ne (h : s.Inv pending) {targ t c m : ℕ}
    (link : s.findChannelLink targ c = some m) (hne : t ≠ targ) (f : MemberFlags → MemberFlags) :
    (s.updFlags m f).statusOf t c = s.statusOf t c := by
  rw [statusOf, (Relabels.updFlags s m f).findChannelLink, statusOf]
  cases hlink : s.findChannelLink t c with
  | none => rfl
  | some k =>
      have hkm : k ≠ m := by
        rintro rfl
        obtain ⟨r, hr, hleft, -⟩ := (findChannelLink_eq_some h).mp link
        obtain ⟨q, hq, hqleft, -⟩ := (findChannelLink_eq_some h).mp hlink
        rw [hr] at hq
        exact hne (hqleft.symm.trans (congrArg Link.left (Option.some.inj hq).symm |>.trans hleft))
      simp only [Option.elim_some, flags, updFlags, LinkGraph.mapLabel,
        Function.update_of_ne hkm]

theorem statusOf_updFlags_self (h : s.Inv pending) {targ c m : ℕ}
    (link : s.findChannelLink targ c = some m) {f g : MemberFlags → MemberFlags}
    (hf : ∀ fl, f fl ∩ statusFlags = g (fl ∩ statusFlags)) :
    (s.updFlags m f).statusOf targ c = g (s.statusOf targ c) := by
  obtain ⟨r, hr, -⟩ := (findChannelLink_eq_some h).mp link
  rw [statusOf, (Relabels.updFlags s m f).findChannelLink, link, statusOf, link]
  simp only [Option.elim_some, flags, updFlags, LinkGraph.mapLabel, Function.update_self, hr,
    Option.map_some]
  exact hf r.label

theorem links_removeUserFromChannel (s : Server) (m k : ℕ) :
    (s.removeUserFromChannel m).graph.links k = if k = m then none else s.graph.links k := by
  unfold removeUserFromChannel
  split
  · rename_i hm
    split
    · rename_i hk
      rw [hk, hm]
    · rfl
  · extract_lets s'
    split
    · exact LinkGraph.links_unlink s.graph m k
    · exact LinkGraph.links_unlink s.graph m k

theorem findChannelLink_removeUserFromChannel (h : s.Inv none) {targ c m : ℕ}
    (link : s.findChannelLink targ c = some m) (t : ℕ) :
    (s.removeUserFromChannel m).findChannelLink t c =
      if t = targ then none else s.findChannelLink t c := by
  obtain ⟨q, hq, hqleft, hqright⟩ := (findChannelLink_eq_some h).mp link
  have hat : ∀ {k}, s.findChannelLink t c = some k → (k = m ↔ t = targ) := by
    intro k hk
    obtain ⟨r, hr, hleft, hright⟩ := (findChannelLink_eq_some h).mp hk
    constructor
    · rintro rfl
      rw [hr] at hq
      exact hleft.symm.trans ((congrArg Link.left (Option.some.inj hq)).trans hqleft)
    · rintro rfl
      exact h.simple k m r q hr hq (hleft.trans hqleft.symm) (hright.trans hqright.symm)
  have hiff : ∀ k, (s.removeUserFromChannel m).findChannelLink t c = some k ↔
      s.findChannelLink t c = some k ∧ k ≠ m := by
    intro k
    rw [findChannelLink_eq_some (h.removeUserFromChannel m), findChannelLink_eq_some h,
      links_removeUserFromChannel]
    by_cases hk : k = m
    · simp [hk]
    · simp [hk]
  refine Option.ext fun k => (hiff k).trans ?_
  split
  · rename_i ht
    simp only [reduceCtorEq, iff_false, not_and, not_not]
    exact fun hk => (hat hk).mpr ht
  · rename_i ht
    exact and_iff_left_of_imp fun hk hkm => ht ((hat hk).mp hkm)

end Links

section Modes

variable {s : Server} {cfg : Config}

theorem modeOf_updChannel (s : Server) (c : ℕ) {f : Channel → Channel}
    (hf : ∀ ch, (f ch).mode = ch.mode) : (s.updChannel c f).modeOf c = s.modeOf c := by
  rw [modeOf, channel?_updChannel, if_pos rfl, Option.map_map, modeOf]
  exact congrArg (fun g => ((s.channel? c).map g).getD Mode.zero) (funext hf)

theorem modeOf_addId (s : Server) (a c : ℕ) (m : Str) (type : BanType) :
    (s.addId cfg a c m type).1.modeOf c = s.modeOf c := by
  unfold addId
  split
  · split
    · rfl
    · extract_lets ban t
      have ht : t.modeOf c = s.modeOf c := by
        dsimp only [t]
        split
        · rfl
        · rw [modeOf, channel?_clearBanCache, modeOf]
      split
      · exact ht
      · exact (modeOf_updChannel t c fun ch => by cases type <;> rfl).trans ht
  · rfl

theorem modeOf_delId (s : Server) (c : ℕ) (m : Str) (type : BanType) :
    (s.delId c m type).1.modeOf c = s.modeOf c := by
  unfold delId
  split
  · extract_lets ban t
    have ht : t.modeOf c = s.modeOf c := by
      dsimp only [t]
      split
      · rfl
      · rw [modeOf, channel?_clearBanCache, modeOf]
    split
    · exact (modeOf_updChannel t c fun ch => by cases type <;> rfl).trans ht
    · exact ht
  · rfl

end Modes

end Server

/-- The flags of the users whom only an owner may touch. -/
def shieldFlags : MemberFlags := {chflOwner, chflProtected}

/-- The flags that a half-operator neither gives nor takes. -/
def fixedFlags (s : Server) (c : ℕ) : MemberFlags :=
  {chflOwner, chflProtected, chflChanop} ∪
    if modePrivate ∈ (s.modeOf c).mode then {chflHalfop} else ∅

namespace ModeContext

/-- The level that a status letter asks for. -/
def needs (s : Server) (c : ℕ) : MemberFlag → ChAccess
  | chflOwner => .owner
  | chflProtected => .protected_
  | chflChanop => .chanop
  | chflHalfop => if modePrivate ∈ (s.modeOf c).mode then .chanop else .halfop
  | _ => .halfop

def setFlag (adding : Bool) (flag : MemberFlag) (fl : MemberFlags) : MemberFlags :=
  if adding then insert flag fl else fl.erase flag

/-- What one letter may do: nothing, a change of the modes or of a list, or a change of one status
flag of one member. -/
inductive Effect (x : ModeContext) (s : Server) : Server → Prop
  | same : Effect x s s
  | channel {s' : Server} (level : .halfop ≤ x.alev) (keeps : s.KeepsStatus s')
      (private_ : x.alev < .chanop → (modePrivate ∈ (s'.modeOf x.chptr).mode ↔
        modePrivate ∈ (s.modeOf x.chptr).mode)) : Effect x s s'
  | status (adding : Bool) {targ member : ℕ} {flag : MemberFlag}
      {f : MemberFlags → MemberFlags} (link : s.findChannelLink targ x.chptr = some member)
      (mem : flag ∈ statusFlags) (level : needs s x.chptr flag ≤ x.alev)
      (self : flag = chflProtected → x.alev < .owner → x.sourceId = targ)
      (shield : adding = false → x.alev < .owner → x.sourceId ≠ targ →
        Disjoint (s.flags member) {chflOwner, chflProtected})
      (eq : ∀ fl, f fl ∩ statusFlags = setFlag adding flag (fl ∩ statusFlags)) :
      Effect x s (s.updFlags member f)

variable {x : ModeContext} {st : ModeState}

section Handlers

theorem effect_limited {s : Server} {k : ModeState → ModeState} (hst : st.server = s)
    (hk : ∀ st' : ModeState, st'.server = s → st'.dir = st.dir → x.Effect s (k st').server) :
    x.Effect s (x.limited st k).server := by
  unfold limited
  split
  · split
    · exact hst ▸ Effect.same
    · exact hk _ hst rfl
  · exact hk st hst rfl

theorem effect_updMode {s : Server} (hst : st.server = s) (hlevel : .halfop ≤ x.alev)
    {f : Mode → Mode}
    (hf : x.alev < .chanop → ∀ m, modePrivate ∈ (f m).mode ↔ modePrivate ∈ m.mode) :
    x.Effect s (st.updMode x.chptr f).server := by
  subst hst
  refine Effect.channel hlevel (Server.KeepsStatus.updChannel _ _ _) fun halev => ?_
  change modePrivate ∈ ((st.server.updChannel x.chptr _).modeOf x.chptr).mode ↔ _
  rw [Server.modeOf, Server.channel?_updChannel, if_pos rfl, Server.modeOf]
  cases st.server.channel? x.chptr with
  | none => rfl
  | some ch => exact hf halev ch.mode

@[simp] theorem server_recordParam (st : ModeState) (c : Char) (arg : ModeArg) :
    (recordParam st c arg).server = st.server := rfl

@[simp] theorem server_updMode_recordParam (st : ModeState) (c : Char) (arg : ModeArg) (d : ℕ)
    (f : Mode → Mode) : ((recordParam st c arg).updMode d f).server = (st.updMode d f).server := rfl

@[simp] theorem server_recordUnset (st : ModeState) (c : Char) (arg : Option Str) :
    (recordUnset st c arg).server = st.server := rfl

theorem effect_chmNosuch : x.Effect st.server (chmNosuch st).server := by
  unfold chmNosuch
  split <;> exact Effect.same

theorem effect_chmSimple (modeType : SimpleMode) (c : Char) :
    x.Effect st.server (x.chmSimple st modeType c).server := by
  unfold chmSimple
  extract_lets mode st₁
  split
  · exact Effect.same
  rename_i hlevel
  obtain ⟨hhalfop, hchanop⟩ : .halfop ≤ x.alev ∧ (modeType = modePrivate → .chanop ≤ x.alev) := by
    simpa only [not_or, not_and, not_lt] using hlevel
  have hprivate {f : Mode → Mode} (hf : ∀ m, f m = { m with mode := insert modeType m.mode } ∨
      f m = { m with mode := m.mode.erase modeType }) : x.alev < .chanop →
        ∀ m, modePrivate ∈ (f m).mode ↔ modePrivate ∈ m.mode := by
    intro halev m
    have hne : modePrivate ≠ modeType := fun heq => absurd (hchanop heq.symm) (not_le.mpr halev)
    rcases hf m with h | h
    · simp [h, hne]
    · simp [h, hne]
  split
  · exact Effect.same
  split
  · exact Effect.same
  split
  · exact Effect.same
  split
  · exact Effect.same
  split
  · exact effect_updMode rfl hhalfop (hprivate fun m => Or.inl rfl)
  split
  · exact effect_updMode rfl hhalfop (hprivate fun m => Or.inr rfl)
  · exact Effect.same

theorem effect_chmMask (hlevel : .halfop ≤ x.alev) (type : BanType) (c : Char)
    (caps : Option ModeCap) (mems : ModeMems) (always : Bool) (mask : Str) (rest : List Str) :
    x.Effect st.server (x.chmMask st type c caps mems always mask rest).server := by
  unfold chmMask
  refine effect_limited rfl fun st' hst' _ => ?_
  extract_lets st₁ local_ arg r st₂
  have hr : x.Effect st.server r.1 := by
    rw [← hst']
    dsimp only [r]
    split
    · exact Effect.channel hlevel (Server.KeepsStatus.addId ..) fun _ => by
        rw [Server.modeOf_addId]
    · exact Effect.channel hlevel (Server.KeepsStatus.delId ..) fun _ => by
        rw [Server.modeOf_delId]
  split
  · exact hst' ▸ Effect.same
  split
  · exact hr
  · exact hr

theorem effect_chmBan (c : Char) : x.Effect st.server (x.chmBan st c).server := by
  unfold chmBan
  split
  · split <;> exact Effect.same
  · split <;> exact Effect.same
  · split
    · exact Effect.same
    · exact effect_chmMask (not_lt.mp ‹_›) ..

theorem effect_chmList (type : BanType) (use : Bool) (shown : SmErr) (cap : ModeCap) (c : Char) :
    x.Effect st.server (x.chmList st type use shown cap c).server := by
  unfold chmList
  split
  · split <;> exact Effect.same
  split
  · exact Effect.same
  split
  · split <;> exact Effect.same
  · split <;> exact Effect.same
  · exact effect_chmMask (not_lt.mp ‹_›) ..

theorem effect_withMember {level : ChAccess} {k : ℕ → ℕ → ModeState → ModeState}
    (hk : level ≤ x.alev → ∀ targ member (st' : ModeState), st'.server = st.server →
      st'.dir ≠ .query → st.server.findChannelLink targ x.chptr = some member →
        x.Effect st.server (k targ member st').server) :
    x.Effect st.server (x.withMember st level k).server := by
  unfold withMember
  split
  · exact Effect.same
  rename_i hlevel
  split
  · exact Effect.same
  · exact Effect.same
  · rename_i hquery
    extract_lets st₁
    split
    · exact Effect.same
    · split
      · split
        · exact Effect.same
        · exact hk (not_lt.mp hlevel) _ _ st₁ rfl (fun h => hquery h) ‹_›
      · exact Effect.same

theorem giveFlag_inter {flag : MemberFlag} (mem : flag ∈ statusFlags) (dir : ModeDir)
    (fl : MemberFlags) : giveFlag dir flag fl ∩ statusFlags =
      if dir = .add then insert flag (fl ∩ statusFlags) else (fl ∩ statusFlags).erase flag := by
  have hdeopped : chflDeopped ∉ statusFlags := by decide
  have hne : chflDeopped ≠ flag := fun h => hdeopped (h ▸ mem)
  unfold giveFlag
  split
  · split
    · rw [Finset.insert_inter_of_mem mem]
    · rw [Finset.erase_inter, Finset.insert_inter_of_mem mem, Finset.erase_eq_of_notMem]
      intro h
      rcases Finset.mem_insert.mp h with h | h
      · exact hne h
      · exact hdeopped (Finset.mem_inter.mp h).2
  · rw [Finset.erase_inter]

theorem effect_giveStatus {s : Server} (hst : st.server = s) {letter : Char} {flag : MemberFlag}
    {targ member : ℕ} (link : s.findChannelLink targ x.chptr = some member)
    (mem : flag ∈ statusFlags) (level : needs s x.chptr flag ≤ x.alev)
    (self : flag = chflProtected → x.alev < .owner → x.sourceId = targ)
    (shield : st.dir ≠ .add → x.alev < .owner → x.sourceId ≠ targ →
      Disjoint (s.flags member) {chflOwner, chflProtected}) :
    x.Effect s (giveStatus st letter flag targ member).server := by
  subst hst
  refine Effect.status (decide (st.dir = .add)) link mem level self
    (fun hadding => shield (by simpa using hadding)) fun fl => ?_
  rw [giveFlag_inter mem, setFlag]
  exact if_congr (by simp) rfl rfl

theorem effect_chmOwner : x.Effect st.server (x.chmOwner st).server := by
  refine effect_withMember fun hlevel targ member st' hst' _ link => ?_
  refine effect_limited hst' fun st'' hst'' _ => ?_
  split
  · exact hst'' ▸ Effect.same
  · exact effect_giveStatus hst'' link (by decide) hlevel (fun h => by cases h)
      fun _ halev => absurd hlevel (not_le.mpr halev)

theorem effect_chmProtect : x.Effect st.server (x.chmProtect st).server := by
  refine effect_withMember fun hlevel targ member st' hst' _ link => ?_
  split
  · exact hst' ▸ Effect.same
  rename_i hself
  refine effect_limited hst' fun st'' hst'' _ => ?_
  have hsource : x.alev < .owner → x.sourceId = targ := fun halev =>
    by_contra fun hne => hself ⟨halev, hne⟩
  split
  · exact hst'' ▸ Effect.same
  · exact effect_giveStatus hst'' link (by decide) hlevel (fun _ => hsource)
      fun _ halev hne => absurd (hsource halev) hne

theorem effect_chmRank {level : ChAccess} (letter : Char) {flag : MemberFlag}
    (mem : flag ∈ statusFlags) (hflag : flag ≠ chflProtected)
    (hneeds : needs st.server x.chptr flag = level) :
    x.Effect st.server (x.chmRank st level letter flag).server := by
  refine effect_withMember fun hlevel targ member st' hst' hquery link => ?_
  refine effect_limited hst' fun st'' hst'' hdir => ?_
  split
  · exact hst'' ▸ Effect.same
  split
  · exact hst'' ▸ Effect.same
  split
  · exact hst'' ▸ Effect.same
  rename_i howner
  split
  · exact hst'' ▸ Effect.same
  rename_i hprotected
  refine effect_giveStatus hst'' link mem (hneeds ▸ hlevel) (fun h => absurd h hflag) ?_
  intro hadd halev hne
  have hdel : st''.dir = .del := by
    cases h : st''.dir with
    | query => exact absurd (hdir.symm.trans h) hquery
    | add => exact absurd h hadd
    | del => rfl
  rw [hst''] at howner hprotected
  simp only [Finset.disjoint_insert_right, Finset.disjoint_singleton_right]
  exact ⟨fun h => howner ⟨hdel, h, halev, hne⟩, fun h => hprotected ⟨hdel, h, halev, hne⟩⟩

theorem effect_chmLimit (c : Char) : x.Effect st.server (x.chmLimit st c).server := by
  unfold chmLimit
  split
  · exact Effect.same
  rename_i hlevel
  split
  · extract_lets st₁ limit
    split
    · exact Effect.same
    · rw [server_updMode_recordParam]
      refine effect_updMode ?_ (not_lt.mp hlevel) ?_
      exacts [rfl, fun _ _ => Iff.rfl]
  · split
    · exact Effect.same
    · rw [server_recordUnset]
      refine effect_updMode ?_ (not_lt.mp hlevel) ?_
      exacts [rfl, fun _ _ => Iff.rfl]
  · exact Effect.same

theorem effect_chmFloodtime (c : Char) : x.Effect st.server (x.chmFloodtime st c).server := by
  unfold chmFloodtime
  split
  · exact Effect.same
  rename_i hlevel
  split
  · extract_lets st₁
    split
    · exact Effect.same
    · split
      · exact Effect.same
      · rw [server_updMode_recordParam]
        refine effect_updMode ?_ (not_lt.mp hlevel) ?_
        exacts [rfl, fun _ _ => Iff.rfl]
  · split
    · exact Effect.same
    · rw [server_recordUnset]
      refine effect_updMode ?_ (not_lt.mp hlevel) ?_
      exacts [rfl, fun _ _ => Iff.rfl]
  · exact Effect.same

theorem effect_chmForward (c : Char) : x.Effect st.server (x.chmForward st c).server := by
  unfold chmForward
  split
  · exact Effect.same
  rename_i hlevel
  split
  · extract_lets st₁ forward
    split
    · exact Effect.same
    · split
      · rw [server_recordParam]
        refine effect_updMode ?_ (not_lt.mp hlevel) ?_
        exacts [rfl, fun _ _ => Iff.rfl]
      · exact Effect.same
  · extract_lets st₁
    split
    · exact Effect.same
    · rw [server_recordUnset]
      refine effect_updMode ?_ (not_lt.mp hlevel) ?_
      exacts [rfl, fun _ _ => Iff.rfl]
  · exact Effect.same

theorem effect_chmKey (c : Char) : x.Effect st.server (x.chmKey st c).server := by
  unfold chmKey
  split
  · exact Effect.same
  rename_i hlevel
  split
  · extract_lets st₁ key
    split
    · exact Effect.same
    · rw [server_recordParam]
      refine effect_updMode ?_ (not_lt.mp hlevel) ?_
      exacts [rfl, fun _ _ => Iff.rfl]
  · extract_lets st₁
    split
    · exact Effect.same
    · rw [server_recordUnset]
      refine effect_updMode ?_ (not_lt.mp hlevel) ?_
      exacts [rfl, fun _ _ => Iff.rfl]
  · exact Effect.same

end Handlers

theorem effect_modeTable (c : Char) : x.Effect st.server (x.modeTable st c).server := by
  unfold modeTable
  split
  all_goals first
    | exact effect_chmSimple _ _
    | exact effect_chmList ..
    | exact effect_chmForward _
    | exact effect_chmProtect
    | exact effect_chmOwner
    | exact effect_chmBan _
    | exact effect_chmFloodtime _
    | exact effect_chmKey _
    | exact effect_chmLimit _
    | exact effect_chmRank _ (by decide) (by decide) rfl
    | exact effect_chmNosuch

/-- What one character of the mode text may do. -/
theorem effect_modeLetter (c : Char) : x.Effect st.server (x.modeLetter st c).server := by
  unfold modeLetter
  split
  · exact Effect.same
  · exact Effect.same
  · exact Effect.same
  · exact effect_modeTable c

theorem foldl_modeLetter {P : Server → Prop} (hstep : ∀ {s s'}, P s → x.Effect s s' → P s')
    (modes : Str) (h : P st.server) : P (modes.foldl x.modeLetter st).server := by
  induction modes generalizing st with
  | nil => exact h
  | cons c modes ih => exact ih (hstep h (effect_modeLetter c))

theorem halfop_le_needs (s : Server) (c : ℕ) (flag : MemberFlag) : .halfop ≤ needs s c flag := by
  unfold needs
  split
  · decide
  · decide
  · decide
  · split <;> decide
  · decide

/-- What a run of letters below the owner level keeps. -/
structure Shielded (x : ModeContext) (s₀ s : Server) : Prop where
  relabels : Server.Relabels s₀ s
  keep : ∀ t ≠ x.sourceId, ¬ Disjoint (s₀.statusOf t x.chptr) shieldFlags →
    s₀.statusOf t x.chptr ⊆ s.statusOf t x.chptr
  gain : ∀ t, s.statusOf t x.chptr ∩ shieldFlags ⊆ s₀.statusOf t x.chptr

theorem Shielded.effect {s₀ s s' : Server} (hinv : s₀.Inv none) (halev : x.alev < .owner)
    (hself : .protected_ ≤ x.alev → chflProtected ∈ s₀.statusOf x.sourceId x.chptr)
    (h : x.Shielded s₀ s) (he : x.Effect s s') : x.Shielded s₀ s' := by
  have hs : s.Inv none := hinv.relabel h.relabels
  cases he with
  | same => exact h
  | channel level keeps private_ =>
      refine ⟨h.relabels.trans keeps.relabels, fun t ht hshield => ?_, fun t => ?_⟩
      · rw [keeps.statusOf]
        exact h.keep t ht hshield
      · rw [keeps.statusOf]
        exact h.gain t
  | @status adding targ member flag f link mem level self shield eq =>
      refine ⟨h.relabels.trans (Server.Relabels.updFlags s member f), fun t ht hshield => ?_, fun t => ?_⟩
      · by_cases htarg : t = targ
        · subst htarg
          rw [Server.statusOf_updFlags_self hs link eq, setFlag]
          split
          · exact (h.keep t ht hshield).trans (Finset.subset_insert flag _)
          · rename_i hadding
            refine absurd ?_ hshield
            have hdisjoint := shield (by simpa using hadding) halev (Ne.symm ht)
            refine Finset.disjoint_of_subset_left (h.keep t ht hshield) ?_
            rw [Server.statusOf, link]
            exact Finset.disjoint_of_subset_left Finset.inter_subset_left hdisjoint
        · rw [Server.statusOf_updFlags_of_ne hs link htarg]
          exact h.keep t ht hshield
      · by_cases htarg : t = targ
        · subst htarg
          rw [Server.statusOf_updFlags_self hs link eq, setFlag]
          intro g hg
          obtain ⟨hg, hshield⟩ := Finset.mem_inter.mp hg
          split at hg
          · rcases Finset.mem_insert.mp hg with rfl | hg
            · rcases Finset.mem_insert.mp hshield with rfl | hshield
              · exact absurd level (not_le.mpr halev)
              · obtain rfl := Finset.mem_singleton.mp hshield
                exact self rfl halev ▸ hself level
            · exact h.gain t (Finset.mem_inter.mpr ⟨hg, hshield⟩)
          · exact h.gain t (Finset.mem_inter.mpr ⟨Finset.mem_of_mem_erase hg, hshield⟩)
        · rw [Server.statusOf_updFlags_of_ne hs link htarg]
          exact h.gain t

/-- What a run of letters at the level of half-operators or below keeps. -/
structure Fixed (x : ModeContext) (s₀ s : Server) : Prop where
  relabels : Server.Relabels s₀ s
  fixed : fixedFlags s x.chptr = fixedFlags s₀ x.chptr
  status : ∀ t, s.statusOf t x.chptr ∩ fixedFlags s₀ x.chptr =
    s₀.statusOf t x.chptr ∩ fixedFlags s₀ x.chptr

theorem not_mem_fixedFlags {s : Server} {c : ℕ} {flag : MemberFlag} (mem : flag ∈ statusFlags)
    (level : needs s c flag ≤ .halfop) : flag ∉ fixedFlags s c := by
  have hvoice : chflVoice ∉ ({chflOwner, chflProtected, chflChanop} : MemberFlags) ∧
      chflVoice ∉ ({chflHalfop} : MemberFlags) := by decide
  unfold fixedFlags
  cases flag with
  | chflOwner => exact absurd level (show ¬ ChAccess.owner ≤ .halfop by decide)
  | chflProtected => exact absurd level (show ¬ ChAccess.protected_ ≤ .halfop by decide)
  | chflChanop => exact absurd level (show ¬ ChAccess.chanop ≤ .halfop by decide)
  | chflHalfop =>
      by_cases hp : modePrivate ∈ (s.modeOf c).mode
      · simp only [needs, if_pos hp] at level
        exact absurd level (by decide)
      · simp [hp]
  | chflVoice =>
      split
      · exact fun h => (Finset.mem_union.mp h).elim hvoice.1 hvoice.2
      · simp
  | chflDeopped => exact absurd mem (by decide)
  | chflBanChecked => exact absurd mem (by decide)
  | chflBanSilenced => exact absurd mem (by decide)

theorem Fixed.effect {s₀ s s' : Server} (hinv : s₀.Inv none) (halev : x.alev ≤ .halfop)
    (h : x.Fixed s₀ s) (he : x.Effect s s') : x.Fixed s₀ s' := by
  have hs : s.Inv none := hinv.relabel h.relabels
  cases he with
  | same => exact h
  | channel level keeps private_ =>
      refine ⟨h.relabels.trans keeps.relabels, ?_, fun t => ?_⟩
      · rw [← h.fixed, fixedFlags, fixedFlags]
        exact congrArg _ (if_congr (private_ (halev.trans_lt (by decide))) rfl rfl)
      · rw [keeps.statusOf]
        exact h.status t
  | @status adding targ member flag f link mem level self shield eq =>
      refine ⟨h.relabels.trans (Server.Relabels.updFlags s member f), h.fixed, fun t => ?_⟩
      have hflag : flag ∉ fixedFlags s₀ x.chptr :=
        h.fixed ▸ not_mem_fixedFlags mem (level.trans halev)
      rw [← h.status t]
      by_cases htarg : t = targ
      · subst htarg
        rw [Server.statusOf_updFlags_self hs link eq, setFlag]
        split
        · exact Finset.insert_inter_of_notMem hflag
        · rw [Finset.erase_inter, Finset.erase_eq_of_notMem]
          exact fun hmem => hflag (Finset.mem_inter.mp hmem).2
      · rw [Server.statusOf_updFlags_of_ne hs link htarg]

theorem eq_of_effect {s s' : Server} (halev : x.alev < .halfop) (he : x.Effect s s') : s' = s := by
  cases he with
  | same => rfl
  | channel level keeps private_ => exact absurd level (not_le.mpr halev)
  | status adding link mem level self shield eq =>
      exact absurd ((halfop_le_needs _ _ _).trans level) (not_le.mpr halev)

end ModeContext

/-- MODE with its parameters, and KICK with the first two. -/
inductive ChannelCommand where
  | mode (parv : List Str)
  | kick (chan user : Str)

namespace ChannelCommand

def name : ChannelCommand → Str
  | mode parv => parv.headD []
  | kick chan _ => firstName chan

/-- The command of the local client `a`; `find` is `find_chasing`. -/
def run (cfg : Config) (find : Str → Option ℕ) (a : ℕ) : ChannelCommand → Server → Server
  | mode parv, s => s.mMode cfg find false a parv
  | kick chan user, s => s.mKick find a chan user

end ChannelCommand

namespace Server

/-- What a command leaves alone in a channel in which its user has the level `level`. -/
structure PrivilegeKept (s s' : Server) (a c : ℕ) (level : ChAccess) : Prop where
  keep : level < .owner → ∀ t ≠ a, ¬ Disjoint (s.statusOf t c) shieldFlags →
    s'.isMember t c = true ∧ s.statusOf t c ⊆ s'.statusOf t c
  gain : level < .owner → ∀ t, s'.statusOf t c ∩ shieldFlags ⊆ s.statusOf t c
  fixed : level = .halfop → ∀ t,
    s'.statusOf t c ∩ fixedFlags s c = s.statusOf t c ∩ fixedFlags s c
  private_ : level = .halfop →
    (modePrivate ∈ (s'.modeOf c).mode ↔ modePrivate ∈ (s.modeOf c).mode)
  chanop : level = .halfop → ∀ t, chflChanop ∈ s.statusOf t c → s'.isMember t c = true
  below : level < .halfop → s' = s

variable {cfg : Config} {s : Server} {find : Str → Option ℕ} {a c : ℕ} {source : Client}

section Access

theorem memberAccess_cases (fl : MemberFlags) :
    (chflOwner ∈ fl ∧ memberAccess fl = .owner) ∨ chflOwner ∉ fl ∧
      ((chflProtected ∈ fl ∧ memberAccess fl = .protected_) ∨ chflProtected ∉ fl ∧
        ((chflChanop ∈ fl ∧ memberAccess fl = .chanop) ∨ chflChanop ∉ fl ∧
          ((chflHalfop ∈ fl ∧ memberAccess fl = .halfop) ∨
            chflHalfop ∉ fl ∧ memberAccess fl = .peon))) := by
  unfold memberAccess
  split_ifs <;> simp_all

theorem getChannelAccess_local (hmy : source.myClient = true) (member : Option ℕ) :
    s.getChannelAccess source member =
      member.elim .notOnChan fun m => memberAccess (s.flags m) := if_neg (by simp [hmy])

theorem mem_statusOf_of_protected (hmy : source.myClient = true)
    (h : .protected_ ≤ s.getChannelAccess source (s.findChannelLink a c))
    (hlt : s.getChannelAccess source (s.findChannelLink a c) < .owner) :
    chflProtected ∈ s.statusOf a c := by
  rw [getChannelAccess_local hmy] at h hlt
  rw [statusOf]
  cases hlink : s.findChannelLink a c with
  | none =>
      rw [hlink] at h
      exact absurd h (show ¬ ChAccess.protected_ ≤ .notOnChan by decide)
  | some m =>
      rw [hlink, Option.elim_some] at h hlt
      rcases memberAccess_cases (s.flags m) with
        ⟨-, heq⟩ | ⟨-, ⟨hprotected, -⟩ | ⟨-, ⟨-, heq⟩ | ⟨-, ⟨-, heq⟩ | ⟨-, heq⟩⟩⟩⟩
      · exact absurd (heq ▸ hlt) (lt_irrefl _)
      · exact Finset.mem_inter.mpr ⟨hprotected, by decide⟩
      · exact absurd (heq ▸ h) (by decide)
      · exact absurd (heq ▸ h) (by decide)
      · exact absurd (heq ▸ h) (by decide)

theorem hasMemberFlags_of_lt_owner (hmy : source.myClient = true)
    (hlt : s.getChannelAccess source (s.findChannelLink a c) < .owner) :
    s.hasMemberFlags (s.findChannelLink a c) {chflOwner} = false := by
  rw [getChannelAccess_local hmy] at hlt
  cases hlink : s.findChannelLink a c with
  | none => rfl
  | some m =>
      rw [hlink, Option.elim_some] at hlt
      have howner : chflOwner ∉ s.flags m := by
        rcases memberAccess_cases (s.flags m) with ⟨-, heq⟩ | ⟨hnot, -⟩
        · exact absurd (heq ▸ hlt) (lt_irrefl _)
        · exact hnot
      simp [hasMemberFlags, howner]

theorem hasMemberFlags_of_eq_halfop (hmy : source.myClient = true)
    (heq : s.getChannelAccess source (s.findChannelLink a c) = .halfop) :
    s.hasMemberFlags (s.findChannelLink a c) {chflHalfop} = true ∧
      s.hasMemberFlags (s.findChannelLink a c) {chflOwner, chflProtected, chflChanop} = false := by
  rw [getChannelAccess_local hmy] at heq
  cases hlink : s.findChannelLink a c with
  | none =>
      rw [hlink] at heq
      cases heq
  | some m =>
      rw [hlink, Option.elim_some] at heq
      rcases memberAccess_cases (s.flags m) with
        ⟨-, h⟩ | ⟨howner, ⟨-, h⟩ | ⟨hprotected, ⟨-, h⟩ | ⟨hchanop, ⟨hhalfop, -⟩ | ⟨-, h⟩⟩⟩⟩
      · cases heq.symm.trans h
      · cases heq.symm.trans h
      · cases heq.symm.trans h
      · simp [hasMemberFlags, howner, hprotected, hchanop, hhalfop]
      · cases heq.symm.trans h

theorem hasMemberFlags_of_lt_halfop (hmy : source.myClient = true)
    (hlt : s.getChannelAccess source (s.findChannelLink a c) < .halfop) :
    s.hasMemberFlags (s.findChannelLink a c) kickers = false := by
  rw [getChannelAccess_local hmy] at hlt
  cases hlink : s.findChannelLink a c with
  | none => rfl
  | some m =>
      rw [hlink, Option.elim_some] at hlt
      rcases memberAccess_cases (s.flags m) with
        ⟨-, h⟩ | ⟨howner, ⟨-, h⟩ | ⟨hprotected, ⟨-, h⟩ | ⟨hchanop, ⟨-, h⟩ | ⟨hhalfop, -⟩⟩⟩⟩
      · exact absurd (h ▸ hlt) (by decide)
      · exact absurd (h ▸ hlt) (by decide)
      · exact absurd (h ▸ hlt) (by decide)
      · exact absurd (h ▸ hlt) (by decide)
      · simp [hasMemberFlags, kickers, howner, hprotected, hchanop, hhalfop]

end Access

theorem isMember_of_not_disjoint {t : ℕ} {fl : MemberFlags}
    (h : ¬ Disjoint (s.statusOf t c) fl) : s.isMember t c = true := by
  rw [isMember]
  cases hlink : s.findChannelLink t c with
  | none => exact absurd (by simp [statusOf, hlink]) h
  | some m => rfl

section Kick

/-- A KICK of a local user either fails or takes out a member that it may take out. -/
theorem mKick_cases (ha : s.client? a = some source) (hmy : source.myClient = true)
    (hservices : source.services = false) {chan : Str} (hc : s.hashFindChannel (firstName chan) = some c)
    (user : Str) : s.mKick find a chan user = s ∨ ∃ ch target who m, s.channel? c = some ch ∧
      s.findChannelLink target c = some m ∧
      s.hasMemberFlags (s.findChannelLink a c) kickers = true ∧
      s.kickAllowed a source ch (s.findChannelLink a c) target who m = true ∧
      s.mKick find a chan user = s.removeUserFromChannel m := by
  obtain ⟨hconnect, hclient⟩ : source.myConnect = true ∧ source.isClient = true := by
    simpa [Client.myClient] using hmy
  have hms : (if (source.isClient && !source.services) = true then s.findChannelLink a c else none) =
      s.findChannelLink a c := if_pos (by simp [hclient, hservices])
  unfold mKick
  rw [ha, hc]
  dsimp only
  rw [hms]
  split
  · rename_i ch target hch htarget
    split
    · exact Or.inl rfl
    split
    · exact Or.inl rfl
    rename_i hmay
    split
    · rename_i who m hwho hm
      split
      · rename_i hallowed
        refine Or.inr ⟨ch, target, who, m, hch, hm, ?_, hallowed, rfl⟩
        simpa [hclient, hservices, mayKick, hconnect] using hmay
      · exact Or.inl rfl
    · exact Or.inl rfl
  · exact Or.inl rfl

theorem statusOf_removeUserFromChannel (h : s.Inv none) {target m : ℕ}
    (hm : s.findChannelLink target c = some m) (t : ℕ) :
    (s.removeUserFromChannel m).statusOf t c = if t = target then ∅ else s.statusOf t c := by
  rw [statusOf, findChannelLink_removeUserFromChannel h hm]
  split
  · simp
  · rename_i ht
    rw [statusOf]
    cases hlink : s.findChannelLink t c with
    | none => rfl
    | some k =>
        have hkm : k ≠ m := by
          rintro rfl
          obtain ⟨r, hr, hleft, -⟩ := (findChannelLink_eq_some h).mp hm
          obtain ⟨q, hq, hqleft, -⟩ := (findChannelLink_eq_some h).mp hlink
          rw [hr] at hq
          exact ht (hqleft.symm.trans
            ((congrArg Link.left (Option.some.inj hq).symm).trans hleft))
        simp only [Option.elim_some, flags, links_removeUserFromChannel, if_neg hkm]

theorem channel?_removeUserFromChannel (s : Server) (m c : ℕ) :
    (s.removeUserFromChannel m).channel? c = s.channel? c ∨
      (s.removeUserFromChannel m).channel? c = none := by
  unfold removeUserFromChannel
  split
  · exact Or.inl rfl
  · rename_i r hr
    extract_lets s'
    have hs' : s'.channel? c = s.channel? c := CacheInv.channel?_unlink s m c
    split
    · by_cases hright : c = r.right
      · subst hright
        exact Or.inr (by simp [destroyChannel, channel?, LinkGraph.setRight])
      · refine Or.inl (Eq.trans ?_ hs')
        simp [destroyChannel, channel?, LinkGraph.setRight, hright]
    · exact Or.inl hs'

theorem modeOf_removeUserFromChannel_of_isMember (h : s.Inv none) {t m : ℕ}
    (ht : (s.removeUserFromChannel m).isMember t c = true) :
    (s.removeUserFromChannel m).modeOf c = s.modeOf c := by
  have hinv := h.removeUserFromChannel m
  obtain ⟨k, hk⟩ := Option.isSome_iff_exists.mp ht
  obtain ⟨r, hr, -, hright⟩ := (findChannelLink_eq_some hinv).mp hk
  obtain ⟨l, hl, -⟩ := hinv.wf.listed_at hr .right
  rcases channel?_removeUserFromChannel s m c with heq | hnone
  · rw [modeOf, heq, modeOf]
  · have hsome : ((s.removeUserFromChannel m).channel? c).isSome = true := by
      rw [isSome_channel?, ← hright]
      exact Option.isSome_iff_exists.mpr ⟨l, hl⟩
    rw [hnone] at hsome
    cases hsome

/-- What `kickAllowed` says of the flags of the target. -/
theorem hasMemberFlags_of_kickAllowed (hmy : source.myClient = true) {ch : Channel}
    {ms : Option ℕ} {target m : ℕ} {who : Client}
    (h : s.kickAllowed a source ch ms target who m = true) :
    (s.hasMemberFlags ms {chflOwner} = false → a ≠ target →
      s.hasMemberFlags (some m) shieldFlags = false) ∧
    (s.hasMemberFlags ms {chflHalfop} = true →
      s.hasMemberFlags ms {chflOwner, chflProtected, chflChanop} = false →
        s.hasMemberFlags (some m) {chflChanop} = false ∧
        (modePrivate ∈ ch.mode.mode →
          s.hasMemberFlags (some m) {chflChanop, chflHalfop} = false)) := by
  simp only [kickAllowed, hmy, Bool.not_true, Bool.false_or, Bool.and_eq_true, Bool.not_eq_true',
    Bool.and_eq_false_iff, Bool.or_eq_false_iff, decide_eq_false_iff_not] at h
  obtain ⟨⟨-, hshield⟩, hhalfop⟩ := h
  refine ⟨fun howner hne => ?_, fun hhop hrank => ?_⟩
  · rcases hshield with (h | h) | h
    · exact h
    · rw [howner] at h
      cases h
    · exact absurd hne h
  · rcases hhalfop with (h | h) | h
    · rw [hhop] at h
      cases h
    · rw [hrank] at h
      cases h
    · exact ⟨h.2, fun hprivate => h.1.resolve_left (not_not.mpr hprivate)⟩

theorem disjoint_statusOf {t m : ℕ} (hm : s.findChannelLink t c = some m) {fl : MemberFlags}
    (h : s.hasMemberFlags (some m) fl = false) : Disjoint (s.statusOf t c) fl := by
  rw [statusOf, hm]
  refine Finset.disjoint_of_subset_left Finset.inter_subset_left ?_
  simpa [hasMemberFlags] using h

theorem PrivilegeKept.refl (s : Server) (a c : ℕ) (level : ChAccess) :
    PrivilegeKept s s a c level where
  keep := fun _ _ _ hshield => ⟨isMember_of_not_disjoint hshield, subset_rfl⟩
  gain := fun _ _ => Finset.inter_subset_left
  fixed := fun _ _ => rfl
  private_ := fun _ => Iff.rfl
  chanop := fun _ _ hchanop => isMember_of_not_disjoint
    (Finset.not_disjoint_iff.mpr ⟨_, hchanop, Finset.mem_singleton_self _⟩)
  below := fun _ => rfl

/-- The flags of a member that a half-operator takes out. -/
theorem disjoint_fixedFlags (hmy : source.myClient = true) {ch : Channel} {who : Client}
    {target m : ℕ} (hch : s.channel? c = some ch) (hm : s.findChannelLink target c = some m)
    (hallowed : s.kickAllowed a source ch (s.findChannelLink a c) target who m = true)
    (hlevel : s.getChannelAccess source (s.findChannelLink a c) = .halfop) :
    Disjoint (s.statusOf target c) (fixedFlags s c) := by
  obtain ⟨hshield, hrank⟩ := hasMemberFlags_of_kickAllowed hmy hallowed
  obtain ⟨hhop, hnot⟩ := hasMemberFlags_of_eq_halfop hmy hlevel
  obtain ⟨hchanop, hprivate⟩ := hrank hhop hnot
  have hshielded : Disjoint (s.statusOf target c) shieldFlags := by
    by_cases hself : a = target
    · subst hself
      rw [hm] at hnot
      exact Finset.disjoint_of_subset_right (by decide) (disjoint_statusOf hm hnot)
    · have howner := hasMemberFlags_of_lt_owner hmy
        (show s.getChannelAccess source (s.findChannelLink a c) < .owner from
          hlevel ▸ (by decide : ChAccess.halfop < .owner))
      exact disjoint_statusOf hm (hshield howner hself)
  have hranked : Disjoint (s.statusOf target c) {chflOwner, chflProtected, chflChanop} := by
    have hunion : ({chflOwner, chflProtected, chflChanop} : MemberFlags) =
        shieldFlags ∪ {chflChanop} := by decide
    rw [hunion, Finset.disjoint_union_right]
    exact ⟨hshielded, disjoint_statusOf hm hchanop⟩
  rw [fixedFlags, Finset.disjoint_union_right]
  refine ⟨hranked, ?_⟩
  split
  · rename_i hp
    rw [modeOf, hch] at hp
    exact Finset.disjoint_of_subset_right (by decide) (disjoint_statusOf hm (hprivate hp))
  · exact Finset.disjoint_empty_right _

theorem privilegeKept_kick (h : s.Inv none) (ha : s.client? a = some source)
    (hmy : source.myClient = true) (hservices : source.services = false) {chan : Str}
    (hc : s.hashFindChannel (firstName chan) = some c) (user : Str) :
    PrivilegeKept s (s.mKick find a chan user) a c
      (s.getChannelAccess source (s.findChannelLink a c)) := by
  have hcases : s.mKick find a chan user = s ∨ _ := mKick_cases ha hmy hservices hc user
  rcases hcases with heq | ⟨ch, target, who, m, hch, hm, hkicker, hallowed, heq⟩
  · rw [heq]
    exact PrivilegeKept.refl ..
  rw [heq]
  obtain ⟨hshield, hrank⟩ := hasMemberFlags_of_kickAllowed hmy hallowed
  have hmember : ∀ t ≠ target, (s.removeUserFromChannel m).isMember t c = s.isMember t c :=
    fun t ht => by rw [isMember, findChannelLink_removeUserFromChannel h hm, if_neg ht, isMember]
  have hstatus := statusOf_removeUserFromChannel h hm
  refine ⟨fun hlt t hta hts => ?_, fun _ t => ?_, fun hlevel t => ?_, fun hlevel => ?_,
    fun hlevel t hchanop => ?_, fun hlt => ?_⟩
  · have ht : t ≠ target := by
      rintro rfl
      exact hts (disjoint_statusOf hm
        (hshield (hasMemberFlags_of_lt_owner hmy hlt) (Ne.symm hta)))
    rw [hmember t ht, hstatus, if_neg ht]
    exact ⟨isMember_of_not_disjoint hts, subset_rfl⟩
  · rw [hstatus]
    split
    · simp
    · exact Finset.inter_subset_left
  · rw [hstatus]
    split
    · rename_i ht
      rw [ht, Finset.disjoint_iff_inter_eq_empty.mp
        (disjoint_fixedFlags hmy hch hm hallowed hlevel), Finset.empty_inter]
    · rfl
  · by_cases hself : a = target
    · subst hself
      obtain ⟨hhop, hnot⟩ := hasMemberFlags_of_eq_halfop hmy hlevel
      have hnotPrivate : modePrivate ∉ (s.modeOf c).mode := by
        intro hp
        rw [modeOf, hch] at hp
        have hflags : chflChanop ∉ s.flags m ∧ chflHalfop ∉ s.flags m := by
          simpa [hasMemberFlags] using (hrank hhop hnot).2 hp
        rw [hm] at hhop
        exact hflags.2 (by simpa [hasMemberFlags] using hhop)
      refine iff_of_false (fun hp => ?_) hnotPrivate
      rcases channel?_removeUserFromChannel s m c with hsame | hnone
      · rw [modeOf, hsame] at hp
        exact hnotPrivate hp
      · rw [modeOf, hnone] at hp
        exact absurd hp (Finset.notMem_empty _)
    · rw [modeOf_removeUserFromChannel_of_isMember h (t := a)]
      rw [hmember a hself, isMember]
      cases hlink : s.findChannelLink a c with
      | none =>
          rw [hlink] at hkicker
          cases hkicker
      | some k => rfl
  · have ht : t ≠ target := by
      rintro rfl
      exact Finset.disjoint_left.mp (disjoint_fixedFlags hmy hch hm hallowed hlevel) hchanop
        (Finset.mem_union_left _ (by decide))
    rw [hmember t ht]
    exact isMember_of_not_disjoint
      (Finset.not_disjoint_iff.mpr ⟨_, hchanop, Finset.mem_singleton_self _⟩)
  · rw [hasMemberFlags_of_lt_halfop hmy hlt] at hkicker
    cases hkicker

end Kick

/-- A MODE of a local user. -/
theorem privilegeKept_setChannelMode (h : s.Inv none) (hmy : source.myClient = true)
    (fromServer : Bool) (modes : Str) (params : List Str) :
    PrivilegeKept s (s.setChannelMode cfg find fromServer a source c (s.findChannelLink a c) modes
      params).server a c (s.getChannelAccess source (s.findChannelLink a c)) := by
  let level := s.getChannelAccess source (s.findChannelLink a c)
  let x : ModeContext := ⟨cfg, find, fromServer, a, source, c, level⟩
  let s' := (s.setChannelMode cfg find fromServer a source c (s.findChannelLink a c) modes
    params).server
  have hshielded (hlt : level < .owner) : x.Shielded s s' :=
    ModeContext.foldl_modeLetter (x := x) (P := x.Shielded s)
      (fun hs he => hs.effect h hlt (fun hp => mem_statusOf_of_protected hmy hp hlt) he) modes
      ⟨Relabels.refl s, fun _ _ _ => subset_rfl, fun _ => Finset.inter_subset_left⟩
  have hfixed (hle : level ≤ .halfop) : x.Fixed s s' :=
    ModeContext.foldl_modeLetter (x := x) (P := x.Fixed s) (fun hs he => hs.effect h hle he) modes
      ⟨Relabels.refl s, rfl, fun _ => rfl⟩
  have hmember : Relabels s s' → ∀ t, s'.isMember t c = s.isMember t c := fun hr t => by
    rw [isMember, hr.findChannelLink, isMember]
  refine ⟨fun hlt t hta hts => ⟨?_, (hshielded hlt).keep t hta hts⟩, fun hlt => (hshielded hlt).gain,
    fun hlevel => (hfixed hlevel.le).status, fun hlevel => ?_, fun hlevel t hchanop => ?_,
    fun hlt => ?_⟩
  · rw [hmember (hshielded hlt).relabels]
    exact isMember_of_not_disjoint hts
  · have hmem (s : Server) : chflHalfop ∈ fixedFlags s c ↔ modePrivate ∈ (s.modeOf c).mode := by
      unfold fixedFlags
      split <;> rename_i hp <;> simp [hp]
    rw [← hmem, ← hmem, (hfixed hlevel.le).fixed]
  · rw [hmember (hfixed hlevel.le).relabels]
    exact isMember_of_not_disjoint
      (Finset.not_disjoint_iff.mpr ⟨_, hchanop, Finset.mem_singleton_self _⟩)
  · exact ModeContext.foldl_modeLetter (x := x) (P := fun s' => s' = s)
      (fun hs he => (ModeContext.eq_of_effect hlt he).trans hs) modes rfl

/-- A MODE or KICK of a local user keeps what the status of the user leaves out of reach. -/
theorem privilegeKept_run (h : s.Inv none) (ha : s.client? a = some source)
    (hmy : source.myClient = true) (hservices : source.services = false) (cmd : ChannelCommand)
    (hc : s.hashFindChannel cmd.name = some c) :
    PrivilegeKept s (cmd.run cfg find a s) a c
      (s.getChannelAccess source (s.findChannelLink a c)) := by
  have hclient : source.isClient = true := by
    simp only [Client.myClient, Bool.and_eq_true] at hmy
    exact hmy.2
  cases cmd with
  | kick chan user => exact privilegeKept_kick h ha hmy hservices hc user
  | mode parv =>
      change PrivilegeKept s (s.mMode cfg find false a parv) a c _
      unfold mMode
      rw [ha]
      split
      · rename_i source' name modes params hsource
        obtain rfl : source = source' := Option.some.inj hsource
        split
        · exact PrivilegeKept.refl ..
        · rw [show s.hashFindChannel name = some c from hc]
          dsimp only
          rw [if_neg (by simp [hclient, hservices])]
          split
          · exact PrivilegeKept.refl ..
          · exact privilegeKept_setChannelMode h hmy false modes params
      · exact PrivilegeKept.refl ..

/-- Alice is half-operator and Bob is operator. -/
def duelServer : Server :=
  ((((init.introduce (Client.make "alice".toList true true)).introduce
    (Client.make "bob".toList true true)).makeChannel 1 "#c".toList).1.addUserToChannel 0 0
      {chflHalfop}).addUserToChannel 0 1 {chflChanop}

theorem inv_duelServer : duelServer.Inv none := by
  have hmade := ((Inv.init.introduce (Client.make "alice".toList true true)).introduce
    (Client.make "bob".toList true true)).makeChannel 1 "#c".toList
  have halice := hmade.addUserToChannel (fun d hd => (Option.some.inj hd).symm)
    (show _ = true from rfl) (show _ = true from rfl) (show isMember _ 0 0 = false from rfl)
    {chflHalfop}
  exact halice.addUserToChannel (fun d hd => by cases hd) rfl rfl
    (show isMember _ 1 0 = false from rfl) _

theorem privilegeKept_duelServer :
    PrivilegeKept duelServer
      ((ChannelCommand.kick "#c".toList "bob".toList).run Config.default (fun _ => some 1) 0
        duelServer) 0 0
      (duelServer.getChannelAccess
        { Client.make "alice".toList true true with users := [1, 0] }
        (duelServer.findChannelLink 0 0)) :=
  privilegeKept_run inv_duelServer rfl rfl rfl _ rfl

end Server

end Unirc
