import Unirc.Bans
import Unirc.ChannelJoin

/-!
# The ban verdict in the membership flags

`can_send` keeps the verdict of `is_banned` in two flags of the membership. The
invariant says that the flags of local users tell the verdict of the present
state; it holds of every change that keeps or clears the flags it touches.
-/

namespace Unirc

open MemberFlag

variable {cfg : Config}

/-- A checked membership is silenced exactly if its user is banned. -/
def Cached (cfg : Config) (ch : Channel) (who : Client) (flags : MemberFlags) : Prop :=
  (chflBanSilenced ∈ flags → chflBanChecked ∈ flags) ∧
    (chflBanChecked ∈ flags → (chflBanSilenced ∈ flags ↔ isBanned cfg ch who = true))

namespace Cached

variable {ch : Channel} {who : Client} {flags flags' : MemberFlags}

theorem of_disjoint (h : Disjoint flags banCacheFlags) : Cached cfg ch who flags := by
  have hc : chflBanChecked ∉ flags := Finset.disjoint_right.mp h (by decide)
  have hs : chflBanSilenced ∉ flags := Finset.disjoint_right.mp h (by decide)
  exact ⟨fun hm => absurd hm hs, fun hm => absurd hm hc⟩

theorem congr_flags (h : Cached cfg ch who flags)
    (hf : ∀ flag ∈ banCacheFlags, flag ∈ flags' ↔ flag ∈ flags) : Cached cfg ch who flags' := by
  have hc := hf chflBanChecked (by decide)
  have hs := hf chflBanSilenced (by decide)
  rw [Cached, hc, hs]
  exact h

end Cached

theorem isBanned_congr {ch : Channel} {who who' : Client}
    (hname : irccmp who.name.val who'.name.val = false) (huser : who'.username = who.username)
    (hhost : who'.host = who.host) (hreal : who'.realhost = who.realhost)
    (hsock : who'.sockhost = who.sockhost) (hip : who'.ip = who.ip) :
    isBanned cfg ch who' = isBanned cfg ch who := by
  have hmatch : ∀ mask, matchMask mask who'.name.val = matchMask mask who.name.val :=
    fun mask => matchMask_congr mask ((irccmp_eq_false_iff_lower _ _).mp hname).symm
  simp only [isBanned, findBmask, hmatch, huser, hhost, hreal, hsock, hip]

namespace Server

variable (cfg : Config) (s : Server)

/-- The flags of a membership of a local user are the verdict. -/
def Sound (r : Link MemberFlags) : Prop :=
  ∀ who ch, s.client? r.left = some who → who.myClient = true → s.channel? r.right = some ch →
    Cached cfg ch who r.label

/-- The memberships of local users are listed at both ends, and their flags are sound. -/
structure CacheInv : Prop where
  link : ∀ {m r}, s.graph.links m = some r →
    m < s.graph.nextLink ∧ r.left < s.nextClient ∧ r.right < s.nextChannel
  client : ∀ {a}, (s.client? a).isSome = true → a < s.nextClient
  channel : ∀ {c}, (s.channel? c).isSome = true → c < s.nextChannel
  listed : ∀ {m r}, s.graph.links m = some r →
    (s.client? r.left).any Client.myClient = true →
      ∀ side, m ∈ (s.graph.listed side (r.at side)).getD []
  ends : ∀ {side n m}, m ∈ (s.graph.listed side n).getD [] →
    m < s.graph.nextLink ∧ ∀ r, s.graph.links m = some r → r.at side = n
  sound : ∀ {m r}, s.graph.links m = some r → s.Sound cfg r

/-- A change of data that leaves every sound membership sound. -/
structure CacheKept (s s' : Server) : Prop extends Relabels s s' where
  sound : ∀ {m r r'}, s.graph.links m = some r → s'.graph.links m = some r' →
    s.Sound cfg r → s'.Sound cfg r'

variable {cfg s} {s' s'' : Server}

namespace CacheKept

theorem refl (s : Server) : CacheKept cfg s s :=
  ⟨Relabels.refl s, fun hr hr' h => Option.some.inj (hr.symm.trans hr') ▸ h⟩

theorem trans (h : CacheKept cfg s s') (h' : CacheKept cfg s' s'') : CacheKept cfg s s'' := by
  refine ⟨h.toRelabels.trans h'.toRelabels, fun hr hr'' hsound => ?_⟩
  obtain ⟨r', hr', -⟩ := h'.shape.links_eq_some hr''
  exact h'.sound hr' hr'' (h.sound hr hr' hsound)

theorem foldl {α : Type*} (f : Server → α → Server) (l : List α)
    (hf : ∀ s, ∀ x ∈ l, CacheKept cfg s (f s x)) (s : Server) :
    CacheKept cfg s (l.foldl f s) := by
  induction l generalizing s with
  | nil => exact refl s
  | cons x l ih =>
      refine (hf s x List.mem_cons_self).trans (ih (fun s y hy => hf s y ?_) _)
      exact List.mem_cons_of_mem _ hy

/-- The same memberships, with data that the verdict does not depend on. -/
theorem of_links (hr : Relabels s s') (hlinks : s'.graph.links = s.graph.links)
    (hclient : ∀ a who, s'.client? a = some who → ∃ who₀, s.client? a = some who₀ ∧
      who₀.myClient = who.myClient ∧
        (who.myClient = true → ∀ ch, isBanned cfg ch who = isBanned cfg ch who₀))
    (hchannel : ∀ c ch, s'.channel? c = some ch → ∃ ch₀, s.channel? c = some ch₀ ∧
      ∀ who, isBanned cfg ch who = isBanned cfg ch₀ who) : CacheKept cfg s s' := by
  refine ⟨hr, fun {m r r'} hm hm' hsound who ch hwho hmy hch => ?_⟩
  rw [hlinks, hm] at hm'
  obtain rfl := Option.some.inj hm'
  obtain ⟨who₀, hwho₀, hmy₀, hban⟩ := hclient _ _ hwho
  obtain ⟨ch₀, hch₀, hban'⟩ := hchannel _ _ hch
  have h := hsound who₀ ch₀ hwho₀ (hmy₀ ▸ hmy) hch₀
  rw [Cached, hban hmy, hban']
  exact h

theorem updChannel (s : Server) (c : ℕ) {f : Channel → Channel}
    (hf : ∀ ch who, isBanned cfg (f ch) who = isBanned cfg ch who) :
    CacheKept cfg s (s.updChannel c f) := by
  refine of_links (Relabels.updChannel s c f) rfl
    (fun a who hwho => ⟨who, hwho, rfl, fun _ _ => rfl⟩) fun d ch hch => ?_
  rw [channel?_updChannel] at hch
  split at hch
  · obtain ⟨ch₀, hch₀, rfl⟩ := Option.map_eq_some_iff.mp hch
    exact ⟨ch₀, hch₀, hf ch₀⟩
  · exact ⟨ch, hch, fun _ => rfl⟩

theorem updClient (s : Server) (a : ℕ) {f : Client → Client} (hk : ∀ k, (f k).kind = k.kind)
    (hf : ∀ k, s.client? a = some k → k.myClient = true →
      ∀ ch, isBanned cfg ch (f k) = isBanned cfg ch k) :
    CacheKept cfg s (s.updClient a f) := by
  refine of_links (Relabels.updClient s a hk) rfl (fun b who hwho => ?_)
    fun c ch hch => ⟨ch, hch, fun _ => rfl⟩
  rw [client?_updClient] at hwho
  split at hwho
  · rename_i hb
    obtain ⟨who₀, hwho₀, rfl⟩ := Option.map_eq_some_iff.mp hwho
    have hmy : who₀.myClient = (f who₀).myClient := by
      have := hk who₀
      simp only [Client.kind, Prod.mk.injEq] at this
      rw [Client.myClient, Client.myClient, this.1, this.2]
    exact ⟨who₀, hwho₀, hmy, fun hm => hf who₀ (hb ▸ hwho₀) (hmy ▸ hm)⟩
  · exact ⟨who, hwho, rfl, fun _ _ => rfl⟩

theorem updFlags (s : Server) (m : ℕ) {f : MemberFlags → MemberFlags}
    (hf : ∀ r, s.graph.links m = some r → s.Sound cfg r →
      s.Sound cfg { r with label := f r.label }) : CacheKept cfg s (s.updFlags m f) := by
  refine ⟨Relabels.updFlags s m f, fun {k r r'} hr hr' hsound => ?_⟩
  have hlinks : (s.updFlags m f).graph.links k =
      if k = m then (s.graph.links m).map fun r => { r with label := f r.label }
      else s.graph.links k := Function.update_apply _ _ _ _
  rw [hlinks] at hr'
  split at hr'
  · rename_i hk
    rw [← hk, hr] at hr'
    obtain rfl := Option.some.inj hr'
    exact hf r (hk ▸ hr) hsound
  · obtain rfl := Option.some.inj (hr.symm.trans hr')
    exact hsound

/-- Flags other than those of the cache may be changed. -/
theorem updFlags_of_congr (s : Server) (m : ℕ) {f : MemberFlags → MemberFlags}
    (hf : ∀ flags, ∀ flag ∈ banCacheFlags, flag ∈ f flags ↔ flag ∈ flags) :
    CacheKept cfg s (s.updFlags m f) :=
  updFlags s m fun _ _ h who ch hwho hmy hch => (h who ch hwho hmy hch).congr_flags (hf _)

theorem updFlags_clear (s : Server) (m : ℕ) :
    CacheKept cfg s (s.updFlags m (· \ banCacheFlags)) :=
  updFlags s m fun _ _ _ _ _ _ _ _ => Cached.of_disjoint Finset.sdiff_disjoint

end CacheKept

section Clear

variable (p : Server → ℕ → Bool)

/-- Clearing the verdicts of the memberships that `p` picks from a list. -/
theorem links_foldl_clear (hp : ∀ s m k, p (s.updFlags m (· \ banCacheFlags)) k = p s k)
    (l : List ℕ) (s : Server) (k : ℕ) :
    (l.foldl (fun s m => if p s m then s.updFlags m (· \ banCacheFlags) else s) s).graph.links k =
      if k ∈ l ∧ p s k = true then
        (s.graph.links k).map fun r => { r with label := r.label \ banCacheFlags }
      else s.graph.links k := by
  have hlinks : ∀ (s : Server) (m : ℕ), (s.updFlags m (· \ banCacheFlags)).graph.links k =
      if k = m then (s.graph.links m).map fun r => { r with label := r.label \ banCacheFlags }
      else s.graph.links k := fun s m => Function.update_apply _ _ _ _
  induction l generalizing s with
  | nil => simp
  | cons m l ih =>
      rw [List.foldl_cons, ih]
      by_cases hm : p s m = true
      · simp only [hm, if_true, hp, hlinks, List.mem_cons]
        by_cases hk : k = m
        · subst hk
          cases s.graph.links k <;> simp [hm]
        · simp [hk]
      · simp only [hm, Bool.false_eq_true, if_false, List.mem_cons]
        by_cases hk : k = m
        · subst hk
          simp [hm]
        · simp [hk]

end Clear

/-- The test of `clear_ban_cache` on a membership. -/
def ofConnected (s : Server) (m : ℕ) : Bool :=
  (s.graph.links m).any fun r => (s.client? r.left).any Client.myConnect

theorem any_myConnect_of_myClient {who : Option Client}
    (h : who.any Client.myClient = true) : who.any Client.myConnect = true := by
  cases who with
  | none => cases h
  | some k => exact (Bool.and_eq_true _ _ ▸ h : _ ∧ _).1

theorem ofConnected_updFlags (s : Server) (m k : ℕ) (f : MemberFlags → MemberFlags) :
    (s.updFlags m f).ofConnected k = s.ofConnected k := by
  have hlinks : (s.updFlags m f).graph.links k =
      if k = m then (s.graph.links m).map fun r => { r with label := f r.label }
      else s.graph.links k := Function.update_apply _ _ _ _
  rw [ofConnected, ofConnected, hlinks]
  split
  · rename_i hk
    rw [hk, Option.any_map]
    rfl
  · rfl

theorem links_clearBanCache (s : Server) (c k : ℕ) : (s.clearBanCache c).graph.links k =
    if k ∈ s.members c ∧ s.ofConnected k = true then
      (s.graph.links k).map fun r => { r with label := r.label \ banCacheFlags }
    else s.graph.links k :=
  links_foldl_clear ofConnected (fun s m k => ofConnected_updFlags s m k _) (s.members c) s k

theorem links_clearBanCacheClient (s : Server) (a k : ℕ) :
    (s.clearBanCacheClient a).graph.links k =
      if k ∈ s.memberships a then
        (s.graph.links k).map fun r => { r with label := r.label \ banCacheFlags }
      else s.graph.links k := by
  have h := links_foldl_clear (fun _ _ => true) (fun _ _ _ => rfl) (s.memberships a) s k
  simp only [if_true, and_true] at h
  exact h

namespace CacheKept

theorem clearBanCache (s : Server) (c : ℕ) : CacheKept cfg s (s.clearBanCache c) := by
  refine foldl _ _ (fun s m _ => ?_) s
  split
  · exact updFlags_clear s m
  · exact refl s

theorem clearBanCacheClient (s : Server) (a : ℕ) : CacheKept cfg s (s.clearBanCacheClient a) :=
  foldl _ _ (fun s m _ => updFlags_clear s m) s

end CacheKept

namespace CacheInv

theorem init : init.CacheInv cfg where
  link := fun h => by cases h
  client := fun h => by cases h
  channel := fun h => by cases h
  listed := fun h => by cases h
  ends := fun {side n m} h => by cases side <;> simp [Server.init, LinkGraph.empty,
    LinkGraph.listed, Side.pick] at h
  sound := fun h => by cases h

theorem relabel (h : s.CacheInv cfg) (hr : Relabels s s')
    (hs : ∀ m r, s'.graph.links m = some r → s'.Sound cfg r) : s'.CacheInv cfg where
  link := by
    intro m r hm
    obtain ⟨r₀, hr₀, hl, hc⟩ := hr.shape.links_eq_some hm
    rw [hr.shape.next, hr.nextClient, hr.next, ← hl, ← hc]
    exact h.link hr₀
  client := fun ha => by
    rw [isSome_client?, hr.shape.listed, ← isSome_client?] at ha
    exact hr.nextClient ▸ h.client ha
  channel := fun hc => by
    rw [isSome_channel?, hr.shape.listed, ← isSome_channel?] at hc
    exact hr.next ▸ h.channel hc
  listed := by
    intro m r hm hmy side
    obtain ⟨r₀, hr₀, hl, hc⟩ := hr.shape.links_eq_some hm
    have hat : r.at side = r₀.at side := by
      rw [Link.at, Link.at, hl, hc]
    rw [hr.shape.listed, hat]
    exact h.listed hr₀ (by rwa [hl, ← hr.myClient_any]) side
  ends := by
    intro side n m hm
    rw [hr.shape.listed] at hm
    refine ⟨hr.shape.next ▸ (h.ends hm).1, fun r hr' => ?_⟩
    obtain ⟨r₀, hr₀, hl, hc⟩ := hr.shape.links_eq_some hr'
    rw [← (h.ends hm).2 r₀ hr₀, Link.at, Link.at, hl, hc]
  sound := fun hm => hs _ _ hm

theorem kept (h : s.CacheInv cfg) (hk : CacheKept cfg s s') : s'.CacheInv cfg := by
  refine h.relabel hk.toRelabels fun m r' hr' => ?_
  obtain ⟨r, hr, -⟩ := hk.shape.links_eq_some hr'
  exact hk.sound hr hr' (h.sound hr)

/-- Behind `clear_ban_cache_client` the client may change. -/
theorem clear_updClient (h : s.CacheInv cfg) (a : ℕ) {f : Client → Client}
    (hk : ∀ k, (f k).kind = k.kind) :
    ((s.clearBanCacheClient a).updClient a f).CacheInv cfg := by
  have hclear : (s.clearBanCacheClient a).CacheInv cfg := h.kept (.clearBanCacheClient s a)
  have hr : Relabels s ((s.clearBanCacheClient a).updClient a f) :=
    (Relabels.clearBanCacheClient s a).trans (Relabels.updClient _ a hk)
  refine hclear.relabel (Relabels.updClient _ a hk) fun m r hm who ch hwho hmy hch => ?_
  by_cases hl : r.left = a
  · obtain ⟨r₀, hr₀, hl₀, -⟩ := hr.shape.links_eq_some hm
    have hmem : m ∈ s.memberships a := by
      have hmy₀ : (s.client? r₀.left).any Client.myClient = true := by
        rw [← hr.myClient_any, hl₀, hwho]
        exact hmy
      have := h.listed hr₀ hmy₀ .left
      rwa [show r₀.at .left = a from hl₀.trans hl] at this
    have hm' : (s.clearBanCacheClient a).graph.links m = some r := hm
    rw [links_clearBanCacheClient, if_pos hmem, hr₀, Option.map_some] at hm'
    obtain rfl := Option.some.inj hm'
    exact Cached.of_disjoint Finset.sdiff_disjoint
  · rw [client?_updClient, if_neg hl] at hwho
    exact hclear.sound hm who ch hwho hmy hch

/-- Behind `clear_ban_cache` the ban lists may change. -/
theorem clear_updChannel (h : s.CacheInv cfg) (c : ℕ) (f : Channel → Channel) :
    ((s.clearBanCache c).updChannel c f).CacheInv cfg := by
  have hclear : (s.clearBanCache c).CacheInv cfg := h.kept (.clearBanCache s c)
  have hr : Relabels s (s.clearBanCache c) := Relabels.clearBanCache s c
  refine hclear.relabel (Relabels.updChannel _ c f) fun m r hm who ch hwho hmy hch => ?_
  by_cases hc : r.right = c
  · obtain ⟨r₀, hr₀, hl₀, hc₀⟩ := hr.shape.links_eq_some hm
    have hmy₀ : (s.client? r₀.left).any Client.myClient = true := by
      rw [← hr.myClient_any, hl₀, show (s.clearBanCache c).client? r.left = some who from hwho]
      exact hmy
    have hmem : m ∈ s.members c := by
      have := h.listed hr₀ hmy₀ .right
      rwa [show r₀.at .right = c from hc₀.trans hc] at this
    have hm' : (s.clearBanCache c).graph.links m = some r := hm
    have hcon : s.ofConnected m = true := by
      rw [ofConnected, hr₀]
      exact any_myConnect_of_myClient hmy₀
    rw [links_clearBanCache, if_pos ⟨hmem, hcon⟩, hr₀, Option.map_some] at hm'
    obtain rfl := Option.some.inj hm'
    exact Cached.of_disjoint Finset.sdiff_disjoint
  · rw [channel?_updChannel, if_neg hc] at hch
    exact hclear.sound hm who ch hwho hmy hch

/-- `remove_ban_list` is followed by `clear_ban_cache`; the two steps commute. -/
theorem clearBanCache_updChannel (s : Server) (c : ℕ) (f : Channel → Channel) :
    (s.updChannel c f).clearBanCache c = (s.clearBanCache c).updChannel c f := by
  have hmem : (s.updChannel c f).members c = s.members c := by
    rw [members, (Relabels.updChannel s c f).shape.listed, members]
  rw [clearBanCache, hmem, clearBanCache]
  refine List.foldl_hom (fun s : Server => s.updChannel c f) fun s m => ?_
  by_cases hm : s.ofConnected m = true
  · have hm' : (s.updChannel c f).ofConnected m = true := hm
    rw [ofConnected] at hm hm'
    rw [if_pos hm, if_pos hm']
    rfl
  · have hm' : ¬ (s.updChannel c f).ofConnected m = true := hm
    rw [ofConnected] at hm hm'
    rw [if_neg hm, if_neg hm']

theorem addUserToChannel (h : s.CacheInv cfg) {a c : ℕ} {flags : MemberFlags}
    (ha : (s.client? a).isSome = true) (hc : (s.channel? c).isSome = true)
    (hf : Disjoint flags banCacheFlags) : (s.addUserToChannel c a flags).CacheInv cfg where
  link := by
    intro m r hm
    rw [Server.addUserToChannel, LinkGraph.links_link] at hm
    have hnext : (s.addUserToChannel c a flags).graph.nextLink = s.graph.nextLink + 1 := rfl
    rw [hnext]
    split at hm
    · obtain rfl := Option.some.inj hm
      exact ⟨by omega, h.client ha, h.channel hc⟩
    · obtain ⟨hlt, hrest⟩ := h.link hm
      exact ⟨Nat.lt_succ_of_lt hlt, hrest⟩
  client := fun hb => by
    rw [client?_addUserToChannel] at hb
    exact h.client hb
  channel := fun hd => by
    rw [channel?_addUserToChannel] at hd
    exact h.channel hd
  listed := by
    intro m r hm hmy side
    rw [client?_addUserToChannel] at hmy
    rw [Server.addUserToChannel, LinkGraph.links_link] at hm
    rw [Server.addUserToChannel, LinkGraph.listed_link]
    split at hm
    · rename_i hnew
      obtain rfl := Option.some.inj hm
      have hsome : (s.graph.listed side (side.pick a c)).isSome = true := by
        cases side
        · rwa [← isSome_client?]
        · rwa [← isSome_channel?]
      obtain ⟨l, hl⟩ := Option.isSome_iff_exists.mp hsome
      rw [Link.at, if_pos rfl, hl, hnew]
      exact List.mem_cons_self
    · have hold := h.listed hm hmy side
      split
      · cases hl : s.graph.listed side (r.at side) with
        | none => simp [hl] at hold
        | some l =>
          rw [hl] at hold
          exact List.mem_cons_of_mem _ hold
      · exact hold
  ends := by
    intro side n m hm
    have hnext : (s.addUserToChannel c a flags).graph.nextLink = s.graph.nextLink + 1 := rfl
    have hcases : m ∈ (s.graph.listed side n).getD [] ∨
        m = s.graph.nextLink ∧ n = side.pick a c := by
      rw [Server.addUserToChannel, LinkGraph.listed_link] at hm
      split at hm
      · rename_i hn
        cases hl : s.graph.listed side n with
        | none => simp [hl] at hm
        | some l =>
          rw [hl] at hm
          exact (List.mem_cons.mp hm).symm.imp id fun hnew => ⟨hnew, hn⟩
      · exact Or.inl hm
    rw [hnext]
    rcases hcases with hold | ⟨rfl, rfl⟩
    · refine ⟨Nat.lt_succ_of_lt (h.ends hold).1, fun r hr => ?_⟩
      rw [Server.addUserToChannel, LinkGraph.links_link,
        if_neg (Nat.ne_of_lt (h.ends hold).1)] at hr
      exact (h.ends hold).2 r hr
    · refine ⟨Nat.lt_succ_self _, fun r hr => ?_⟩
      rw [Server.addUserToChannel, LinkGraph.links_link, if_pos rfl] at hr
      exact Option.some.inj hr ▸ rfl
  sound := by
    intro m r hm who ch hwho hmy hch
    rw [client?_addUserToChannel] at hwho
    rw [channel?_addUserToChannel] at hch
    rw [Server.addUserToChannel, LinkGraph.links_link] at hm
    split at hm
    · obtain rfl := Option.some.inj hm
      exact Cached.of_disjoint hf
    · exact h.sound hm who ch hwho hmy hch

theorem channel?_unlink (s : Server) (m c : ℕ) :
    ({ s with graph := s.graph.unlink m } : Server).channel? c = s.channel? c := by
  simp only [channel?, LinkGraph.unlink]
  split
  · rfl
  · exact LinkGraph.data_mapLinks _ _ _ (·.erase m)

theorem unlink (h : s.CacheInv cfg) (m : ℕ) :
    ({ s with graph := s.graph.unlink m } : Server).CacheInv cfg := by
  have hlinks : ∀ {k r}, (s.graph.unlink m).links k = some r →
      s.graph.links k = some r ∧ k ≠ m := by
    intro k r hk
    rw [LinkGraph.links_unlink] at hk
    split at hk
    · cases hk
    · rename_i hne
      exact ⟨hk, hne⟩
  have hnext : (s.graph.unlink m).nextLink = s.graph.nextLink := by
    unfold LinkGraph.unlink
    split <;> rfl
  refine ⟨fun hk => ?_, fun hb => ?_, fun hd => ?_, fun {k r} hk hmy side => ?_,
    fun {side n k} hk => ?_, fun {k r} hk who ch hwho hmy hch => ?_⟩
  · exact hnext ▸ h.link (hlinks hk).1
  · rw [client?_unlink] at hb
    exact h.client hb
  · rw [channel?_unlink] at hd
    exact h.channel hd
  · rw [client?_unlink] at hmy
    obtain ⟨hk, hne⟩ := hlinks hk
    have hold := h.listed hk hmy side
    change k ∈ ((s.graph.unlink m).listed side (r.at side)).getD []
    cases hm : s.graph.links m with
    | none => rwa [LinkGraph.unlink_of_none s.graph hm]
    | some q =>
      rw [LinkGraph.listed_unlink s.graph hm]
      split
      · cases hl : s.graph.listed side (r.at side) with
        | none => simp [hl] at hold
        | some l =>
          rw [hl] at hold
          exact (List.mem_erase_of_ne hne).mpr hold
      · exact hold
  · have hold : k ∈ (s.graph.listed side n).getD [] := by
      change k ∈ ((s.graph.unlink m).listed side n).getD [] at hk
      cases hm : s.graph.links m with
      | none => rwa [LinkGraph.unlink_of_none s.graph hm] at hk
      | some q =>
        rw [LinkGraph.listed_unlink s.graph hm] at hk
        split at hk
        · cases hl : s.graph.listed side n with
          | none => simp [hl] at hk
          | some l =>
            rw [hl] at hk
            exact List.mem_of_mem_erase hk
        · exact hk
    exact ⟨hnext ▸ (h.ends hold).1, fun r hr => (h.ends hold).2 r (hlinks hr).1⟩
  · rw [client?_unlink] at hwho
    rw [channel?_unlink] at hch
    exact h.sound (hlinks hk).1 who ch hwho hmy hch

/-- The record of a channel may be set when no local user is in it. -/
theorem setRight (h : s.CacheInv cfg) {c n : ℕ} {d : Option Channel} {list : List ℕ}
    (hlinks : ∀ m r, s.graph.links m = some r → r.right = c →
      (s.client? r.left).any Client.myClient = false)
    (hn : s.nextChannel ≤ n) (hd : d.isSome = true → c < n) :
    ({ s with
        graph := s.graph.setRight c d
        globalChannelList := list
        nextChannel := n } : Server).CacheInv cfg := by
  have hchannel : ∀ e, ({ s with
      graph := s.graph.setRight c d
      globalChannelList := list
      nextChannel := n } : Server).channel? e = if e = c then d else s.channel? e := by
    intro e
    simp only [channel?, LinkGraph.setRight, Function.update_apply]
    split
    · cases d <;> rfl
    · rfl
  refine ⟨fun hm => ?_, fun hb => h.client hb, fun {e} he => ?_, fun {m r} hm hmy side => ?_,
    fun {side k m} hm => ?_, fun {m r} hm who ch hwho hmy hch => ?_⟩
  · obtain ⟨h₁, h₂, h₃⟩ := h.link hm
    exact ⟨h₁, h₂, lt_of_lt_of_le h₃ hn⟩
  · rw [hchannel] at he
    split at he
    · rename_i hc
      exact hc ▸ hd he
    · exact lt_of_lt_of_le (h.channel he) hn
  · have hold := h.listed hm hmy side
    rwa [LinkGraph.listed_setRight, if_neg]
    rintro ⟨rfl, hc⟩
    have hmy' : (s.client? r.left).any Client.myClient = true := hmy
    rw [hlinks m r hm hc] at hmy'
    cases hmy'
  · rw [LinkGraph.listed_setRight] at hm
    split at hm
    · cases d <;> cases hm
    · exact h.ends hm
  · rw [hchannel] at hch
    have hwho' : s.client? r.left = some who := hwho
    split at hch
    · rename_i hc
      have := hlinks m r hm hc
      rw [hwho', Option.any_some, hmy] at this
      cases this
    · exact h.sound hm who ch hwho hmy hch

theorem destroyChannel (h : s.CacheInv cfg) {c : ℕ} (hc : s.members c = []) :
    (s.destroyChannel c).CacheInv cfg := by
  refine h.setRight (fun m r hm hright => ?_) le_rfl (by simp)
  by_contra hmy
  have hold := h.listed hm (by simpa using hmy) .right
  rw [show r.at .right = c from hright] at hold
  rw [members] at hc
  rw [hc] at hold
  cases hold

theorem makeChannel (h : s.CacheInv cfg) (now : ℤ) (name : Str) :
    (s.makeChannel now name).1.CacheInv cfg := by
  refine h.setRight (fun m r hm hright => ?_) (Nat.le_succ _) fun _ => Nat.lt_succ_self _
  exact absurd (h.link hm).2.2 (by omega)

theorem removeUserFromChannel (h : s.CacheInv cfg) (m : ℕ) :
    (s.removeUserFromChannel m).CacheInv cfg := by
  unfold Server.removeUserFromChannel
  split
  · exact h
  · dsimp only
    split
    · rename_i hnil
      exact (h.unlink m).destroyChannel hnil
    · exact h.unlink m

theorem doJoin0 (h : s.CacheInv cfg) (a : ℕ) : (s.doJoin0 a).CacheInv cfg := by
  unfold Server.doJoin0
  generalize s.memberships a = l
  induction l generalizing s with
  | nil => exact h
  | cons m l ih => exact ih (h.removeUserFromChannel m)

/-- The record of a client may be set when it has no membership or is removed. -/
theorem setLeft (h : s.CacheInv cfg) {a n : ℕ} {d : Option Client}
    (hlinks : d.isSome = true → ∀ m r, s.graph.links m = some r → r.left ≠ a)
    (hn : s.nextClient ≤ n) (hd : d.isSome = true → a < n) :
    ({ s with graph := s.graph.setLeft a d, nextClient := n } : Server).CacheInv cfg := by
  have hclient : ∀ b, ({ s with graph := s.graph.setLeft a d, nextClient := n } : Server).client? b
      = if b = a then d else s.client? b := by
    intro b
    simp only [client?, LinkGraph.setLeft, Function.update_apply]
    split
    · cases d <;> rfl
    · rfl
  have hleft : ∀ {m r who}, s.graph.links m = some r →
      (if r.left = a then d else s.client? r.left) = some who →
        r.left ≠ a ∧ s.client? r.left = some who := by
    intro m r who hm hwho
    split at hwho
    · rename_i ha
      exact absurd ha (hlinks (Option.isSome_of_eq_some hwho) m r hm)
    · rename_i ha
      exact ⟨ha, hwho⟩
  refine ⟨fun hm => ?_, fun {b} hb => ?_, fun hc => h.channel hc, fun {m r} hm hmy side => ?_,
    fun {side k m} hm => ?_, fun {m r} hm who ch hwho hmy hch => ?_⟩
  · obtain ⟨h₁, h₂, h₃⟩ := h.link hm
    exact ⟨h₁, lt_of_lt_of_le h₂ hn, h₃⟩
  · rw [hclient] at hb
    split at hb
    · rename_i ha
      exact ha ▸ hd hb
    · exact lt_of_lt_of_le (h.client hb) hn
  · obtain ⟨who, hwho⟩ := Option.isSome_iff_exists.mp (Option.isSome_of_any hmy)
    rw [hwho] at hmy
    rw [hclient] at hwho
    obtain ⟨hne, hwho⟩ := hleft hm hwho
    have hold := h.listed hm (hwho ▸ hmy) side
    rwa [LinkGraph.listed_setLeft, if_neg]
    rintro ⟨rfl, ha⟩
    exact hne ha
  · rw [LinkGraph.listed_setLeft] at hm
    split at hm
    · cases d <;> cases hm
    · exact h.ends hm
  · rw [hclient] at hwho
    exact h.sound hm who ch (hleft hm hwho).2 hmy hch

theorem findOrMake (h : s.CacheInv cfg) (now : ℤ) (name : Str) {c : ℕ} {isnew : Bool}
    (hf : s.findOrMake now name = (s', c, isnew)) :
    s'.CacheInv cfg ∧ ∀ a, s'.client? a = s.client? a := by
  unfold Server.findOrMake at hf
  split at hf
  · obtain ⟨rfl, rfl, rfl⟩ := hf
    exact ⟨h, fun _ => rfl⟩
  · obtain ⟨rfl, rfl, rfl⟩ := hf
    exact ⟨h.makeChannel now name, fun _ => rfl⟩

end CacheInv

end Server

end Unirc
