import Unirc.BanCache
import Unirc.ServerRun

/-!
# The ban cache over runs

Every operation keeps the cached verdicts, but for a host change of a local user
with a checked membership: CHGHOST and the mode `x` do not clear the cache.
-/

namespace Unirc

open MemberFlag

variable {cfg : Config}

namespace Server

section Conditions

variable (cfg : Config) (s : Server) (virthost : Str → Str)

/-- No membership of the client is checked. -/
def unchecked (a : ℕ) : Bool :=
  (s.memberships a).all fun m => (s.graph.links m).all fun r => chflBanChecked ∉ r.label

/-- A local user with a checked membership has this host. -/
def hostFits (a : ℕ) (host : Str) : Bool :=
  (s.client? a).all fun who => !who.myClient || who.host == host || s.unchecked a

/-- A CHGHOST that is accepted does not change the host of such a user. -/
def chghostFits (find : Str → Option ℕ) (a : ℕ) (nick host : Str) : Bool :=
  (s.client? a).all fun source => (find nick).all fun target =>
    source.isClient || decide (HOSTLEN < host.length) || host == [] || !validHostname host ||
      s.hostFits target host

/-- Nor does the mode `x`. -/
def cloakFits (a : ℕ) (adding : Bool) : Bool :=
  (s.client? a).all fun who =>
    if adding then !cfg.enableCloakSystem || who.ipSpoof || who.cloaked ||
      s.hostFits a (virthost who.sockhost)
    else !who.cloaked || s.hostFits a who.realhost

def userModeXFits (link a : ℕ) (adding : Bool) : Bool :=
  !((s.client? link).any fun k => k.services && !k.isClient) || s.cloakFits cfg virthost a adding

/-- Nor does one of the letters of an SVSMODE, in the state that it finds. -/
def svsmodeScanFits (a : ℕ) : Bool → Str → Server → Bool
  | _, [], _ => true
  | what, c :: cs, s =>
      if c = '+' then svsmodeScanFits a true cs s
      else if c = '-' then svsmodeScanFits a false cs s
      else (c != 'x' || s.cloakFits cfg virthost a what) &&
        svsmodeScanFits a what cs (s.svsmodeLetter cfg virthost a what c)

def svsmodeFits (find : Str → Option ℕ) (a : ℕ) (parv : List Str) : Bool :=
  match s.client? a, parv with
  | some source, nick :: ts :: modes =>
      (find nick).all fun target =>
        !source.services || modes.isEmpty ||
          (Decimal.atol ts != 0 &&
            (s.client? target).all fun k => k.tsinfo != Decimal.atol ts) ||
          svsmodeScanFits cfg virthost target true modes.flatten s
  | _, _ => true

end Conditions

/-- The event does not change the host of a local user with a checked membership. -/
def Event.KeepsHost (cfg : Config) (s : Server) : Event → Prop
  | .chghost find a nick host => s.chghostFits find a nick host = true
  | .userModeX virthost link a adding => s.userModeXFits cfg virthost link a adding = true
  | .svsmode virthost find a parv => s.svsmodeFits cfg virthost find a parv = true
  | _ => True

variable {s s' : Server}

theorem updClient_updClient (s : Server) (a : ℕ) (f g : Client → Client) :
    (s.updClient a f).updClient a g = s.updClient a (g ∘ f) := by
  have h : LinkGraph.mapData (LinkGraph.mapData s.graph.lefts a f) a g =
      LinkGraph.mapData s.graph.lefts a (g ∘ f) := by
    simp only [LinkGraph.mapData, Function.update_idem, Function.update_self, Option.map_map]
    rfl
  simp only [updClient, LinkGraph.mapLeft, h]

namespace CacheKept

theorem removeAMode (s : Server) (c : ℕ) {mask : MemberFlag} (hmask : mask ∉ banCacheFlags) :
    CacheKept cfg s (s.removeAMode c mask) := by
  refine foldl _ _ (fun s m _ => updFlags_of_congr s m fun flags flag hflag => ?_) s
  have hne : flag ≠ mask := fun he => hmask (he ▸ hflag)
  simp [hne]

theorem removeOurModes (s : Server) (c : ℕ) : CacheKept cfg s (s.removeOurModes c) := by
  refine foldl _ _ (fun s p hp => removeAMode s c ?_) s
  have h : ∀ p ∈ ourModes, p.1 ∉ banCacheFlags := by decide
  exact h p hp

/-- Of a channel, all but the ban lists may change. -/
theorem updChannel_lists (s : Server) (c : ℕ) {f : Channel → Channel}
    (hban : ∀ ch, (f ch).banlist = ch.banlist)
    (hexcept : ∀ ch, (f ch).exceptlist = ch.exceptlist) : CacheKept cfg s (s.updChannel c f) := by
  refine updChannel s c fun ch who => ?_
  simp only [isBanned, hban, hexcept]

/-- Of a client, all but what the bans are compared with may change. -/
theorem updClient_ident (s : Server) (a : ℕ) {f : Client → Client}
    (hk : ∀ k, (f k).kind = k.kind)
    (hf : ∀ k, ((f k).name, (f k).username, (f k).host, (f k).realhost, (f k).sockhost,
      (f k).ip) = (k.name, k.username, k.host, k.realhost, k.sockhost, k.ip)) :
    CacheKept cfg s (s.updClient a f) := by
  refine updClient s a hk fun k _ _ ch => ?_
  have h := hf k
  simp only [Prod.mk.injEq] at h
  obtain ⟨hname, huser, hhost, hreal, hsock, hip⟩ := h
  refine isBanned_congr ?_ huser hhost hreal hsock hip
  rw [hname, irccmp_eq_false_iff]

/-- Of a client that is not a local user, everything may change. -/
theorem updClient_remote (s : Server) (a : ℕ) {f : Client → Client}
    (hk : ∀ k, (f k).kind = k.kind) (ha : (s.client? a).any Client.myClient = false) :
    CacheKept cfg s (s.updClient a f) := by
  refine updClient s a hk fun k hk' hmy ch => ?_
  rw [hk', Option.any_some, hmy] at ha
  cases ha

end CacheKept

namespace CacheInv

/-- The host of a client without checked memberships may change. -/
theorem updClient_unchecked (h : s.CacheInv cfg) {a : ℕ} (hu : s.unchecked a = true)
    {f : Client → Client} (hk : ∀ k, (f k).kind = k.kind) : (s.updClient a f).CacheInv cfg := by
  have hr := Relabels.updClient s a hk
  refine h.relabel hr fun m r hm who ch hwho hmy hch => ?_
  by_cases hl : r.left = a
  · have hm' : s.graph.links m = some r := hm
    have hmy₀ : (s.client? r.left).any Client.myClient = true := by
      rw [← hr.myClient_any, hwho]
      exact hmy
    have hmem : m ∈ s.memberships a := by
      have := h.listed hm' hmy₀ .left
      rwa [show r.at .left = a from hl] at this
    have hun : chflBanChecked ∉ r.label := by
      have hall := List.all_eq_true.mp hu m hmem
      simpa only [hm', Option.all_some, decide_eq_true_eq] using hall
    obtain ⟨who₀, hwho₀⟩ := Option.isSome_iff_exists.mp (Option.isSome_of_any hmy₀)
    rw [hwho₀, Option.any_some] at hmy₀
    exact ⟨(h.sound hm' who₀ ch hwho₀ hmy₀ hch).1, fun hc => absurd hc hun⟩
  · rw [client?_updClient, if_neg hl] at hwho
    exact h.sound hm who ch hwho hmy hch

theorem updHost (h : s.CacheInv cfg) {a : ℕ} {f : Client → Client}
    (hk : ∀ k, (f k).kind = k.kind)
    (hf : ∀ k, ((f k).name, (f k).username, (f k).realhost, (f k).sockhost, (f k).ip) =
      (k.name, k.username, k.realhost, k.sockhost, k.ip))
    (hhost : ∀ k, s.client? a = some k → k.myClient = true → s.hostFits a (f k).host = true) :
    (s.updClient a f).CacheInv cfg := by
  by_cases hu : s.unchecked a = true
  · exact h.updClient_unchecked hu hk
  · refine h.kept (CacheKept.updClient s a hk fun k hk' hmy ch => ?_)
    have hfit := hhost k hk' hmy
    simp only [hostFits, hk', Option.all_some, hmy, Bool.not_true, Bool.false_or, hu,
      Bool.or_false, beq_iff_eq] at hfit
    have hrest := hf k
    simp only [Prod.mk.injEq] at hrest
    obtain ⟨hname, huser, hreal, hsock, hip⟩ := hrest
    refine isBanned_congr ?_ huser hfit.symm hreal hsock hip
    rw [hname, irccmp_eq_false_iff]

theorem meChghost (h : s.CacheInv cfg) {find : Str → Option ℕ} {a : ℕ} {nick host : Str}
    (hfit : s.chghostFits find a nick host = true) :
    (s.meChghost find a nick host).CacheInv cfg := by
  unfold Server.meChghost
  split
  · rename_i source target hs ht
    split
    · exact h
    split
    · exact h
    split
    · rename_i hserver hgood _
      refine h.updHost (fun _ => rfl) (fun _ => rfl) fun k hk hmy => ?_
      simp only [chghostFits, hs, ht, Option.all_some, Bool.or_eq_true, decide_eq_true_eq,
        beq_iff_eq, Bool.not_eq_true', hserver] at hfit
      tauto
    · exact h
  · exact h

theorem cloakLetter (h : s.CacheInv cfg) {virthost : Str → Str} {a : ℕ} {adding : Bool}
    (hfit : s.cloakFits cfg virthost a adding = true) :
    (s.cloakLetter cfg virthost a adding).CacheInv cfg := by
  unfold Server.cloakLetter
  split
  · exact h
  · rename_i who hwho
    simp only [cloakFits, hwho, Option.all_some] at hfit
    have hself : ∀ k, s.client? a = some k → k = who :=
      fun k hk => Option.some.inj (hk.symm.trans hwho)
    split
    · rename_i hadd
      simp only [hadd, if_true, Bool.or_eq_true, Bool.not_eq_true'] at hfit
      split
      · exact h
      split
      · exact h
      · rename_i hguard hcloak
        refine h.updHost (fun _ => rfl) (fun _ => rfl) fun k hk hmy => ?_
        obtain rfl := hself k hk
        rw [if_pos hmy]
        tauto
    · rename_i hadd
      simp only [hadd, Bool.false_eq_true, if_false, Bool.or_eq_true, Bool.not_eq_true'] at hfit
      split
      · exact h
      · rename_i hcloak
        refine h.updHost (fun _ => rfl) (fun _ => rfl) fun k hk hmy => ?_
        obtain rfl := hself k hk
        rw [if_pos hmy]
        tauto

/-- The verdict that `can_send` writes is that of its channel and its user. -/
theorem canSendMember (h : s.CacheInv cfg) {a c m : ℕ} {source : Client} {ch : Channel}
    (hs : s.client? a = some source) (hch : s.channel? c = some ch)
    (hm : ∀ r, s.graph.links m = some r → r.left = a ∧ r.right = c) (msg : Message) :
    (s.canSendMember cfg ch source m msg).1.CacheInv cfg := by
  unfold Server.canSendMember
  extract_lets flags
  have hflags : ∀ r, s.graph.links m = some r → flags = r.label := by
    intro r hr
    simp only [flags, hr, Option.elim_some]
  have hsame : ∀ {r who ch'}, s.graph.links m = some r → s.client? r.left = some who →
      s.channel? r.right = some ch' → who = source ∧ ch' = ch := by
    intro r who ch' hr hwho hch'
    obtain ⟨hl, hc⟩ := hm r hr
    rw [hl] at hwho
    rw [hc] at hch'
    exact ⟨Option.some.inj (hwho.symm.trans hs), Option.some.inj (hch'.symm.trans hch)⟩
  split
  · exact h
  split
  · exact h
  split
  · exact h
  split
  · exact h
  split
  · rename_i hban
    refine h.kept (CacheKept.updFlags s m fun r hr _ who ch' hwho _ hch' => ?_)
    obtain ⟨rfl, rfl⟩ := hsame hr hwho hch'
    have hc : chflBanChecked ∈ r.label ∪ banCacheFlags :=
      Finset.mem_union_right _ (by decide)
    have hsil : chflBanSilenced ∈ r.label ∪ banCacheFlags :=
      Finset.mem_union_right _ (by decide)
    exact ⟨fun _ => hc, fun _ => ⟨fun _ => hban, fun _ => hsil⟩⟩
  · rename_i hsilenced hchecked hban
    refine h.kept (CacheKept.updFlags s m fun r hr _ who ch' hwho _ hch' => ?_)
    obtain ⟨rfl, rfl⟩ := hsame hr hwho hch'
    rw [hflags r hr] at hsilenced
    have hsil : chflBanSilenced ∉ insert chflBanChecked r.label := by
      simpa using hsilenced
    exact ⟨fun hin => absurd hin hsil, fun _ => ⟨fun hin => absurd hin hsil,
      fun hin => absurd hin hban⟩⟩

theorem findChannelLink_eq_some (h : s.CacheInv cfg) {a c m : ℕ}
    (hm : s.findChannelLink a c = some m) :
    ∃ r, s.graph.links m = some r ∧ r.left = a ∧ r.right = c := by
  unfold findChannelLink at hm
  split at hm
  · rw [LinkGraph.between] at hm
    have hright := List.find?_some hm
    have hmem : m ∈ (s.graph.listed .left a).getD [] := List.mem_of_find?_eq_some hm
    cases hr : s.graph.links m with
    | none => simp [hr] at hright
    | some r =>
      rw [hr, Option.any_some, beq_iff_eq] at hright
      exact ⟨r, rfl, (h.ends hmem).2 r hr, hright⟩
  · cases hm

theorem canSend (h : s.CacheInv cfg) (a c : ℕ) (msg : Message) :
    (s.canSend cfg a c msg).1.CacheInv cfg := by
  unfold Server.canSend
  split
  · rename_i source ch hs hch
    split
    · exact h
    split
    · exact h
    split
    · rename_i m hm
      obtain ⟨r, hr, hends⟩ := h.findChannelLink_eq_some hm
      refine h.canSendMember hs hch (fun r' hr' => ?_) msg
      exact Option.some.inj (hr.symm.trans hr') ▸ hends
    · split <;> exact h
  · exact h

end CacheInv

theorem client?_canSendMember (s : Server) (ch : Channel) (source : Client) (m b : ℕ)
    (msg : Message) : (s.canSendMember cfg ch source m msg).1.client? b = s.client? b := by
  unfold canSendMember
  extract_lets
  split_ifs <;> rfl

theorem client?_canSend (s : Server) (a c b : ℕ) (msg : Message) :
    (s.canSend cfg a c msg).1.client? b = s.client? b := by
  unfold canSend
  split
  · split
    · rfl
    split
    · rfl
    split
    · exact client?_canSendMember _ _ _ _ _ _
    split <;> rfl
  · rfl

theorem CacheInv.speaksEverywhere (h : s.CacheInv cfg) (a : ℕ) (ms : List ℕ) :
    (speaksEverywhere cfg a ms s).1.CacheInv cfg ∧
      ∀ b, (Server.speaksEverywhere cfg a ms s).1.client? b = s.client? b := by
  induction ms generalizing s with
  | nil => exact ⟨h, fun _ => rfl⟩
  | cons m ms ih =>
      rw [Server.speaksEverywhere]
      split
      · exact ⟨h, fun _ => rfl⟩
      · rename_i r _
        have h' := h.canSend a r.right ⟨false, false, none⟩
        have hcl : ∀ b, (s.canSend cfg a r.right ⟨false, false, none⟩).1.client? b =
            s.client? b := fun b => client?_canSend s a r.right b _
        dsimp only
        split
        · obtain ⟨h'', hcl'⟩ := ih h'
          exact ⟨h'', fun b => (hcl' b).trans (hcl b)⟩
        · exact ⟨h', hcl⟩

theorem irccmp_strlcpy {name : Buf (HOSTLEN + 1)} {nick : Str}
    (h : irccmp name.val nick = false) :
    irccmp name.val (Buf.strlcpy nick : Buf (HOSTLEN + 1)).val = false := by
  have hlen : nick.length < HOSTLEN + 1 := by
    have := congrArg List.length ((irccmp_eq_false_iff _ _).mp h)
    simp only [List.length_map] at this
    exact this ▸ name.property
  have hval : (Buf.strlcpy nick : Buf (HOSTLEN + 1)) = ⟨nick, hlen⟩ := Buf.strlcpy_val ⟨nick, hlen⟩
  rw [hval]
  exact h

namespace CacheInv

theorem renewNick_setNick (h : s.CacheInv cfg) (ts : ℤ) (a : ℕ) (nick : Str) :
    ((s.renewNick ts a).setNick a nick).CacheInv cfg := by
  rw [renewNick, setNick, updClient_updClient]
  exact h.clear_updClient a fun _ => rfl

theorem changeLocalNick (h : s.CacheInv cfg) (now : ℤ) (tooFast : Bool) (a : ℕ) (nick : Str) :
    (s.changeLocalNick cfg now tooFast a nick).CacheInv cfg := by
  unfold Server.changeLocalNick
  split
  · exact h
  · rename_i source hs
    extract_lets spoken
    have hspoken : spoken.1.CacheInv cfg ∧ ∀ b, spoken.1.client? b = s.client? b := by
      dsimp only [spoken]
      split
      · exact h.speaksEverywhere a _
      · exact ⟨h, fun _ => rfl⟩
    split
    · exact hspoken.1
    split
    · exact hspoken.1.renewNick_setNick now a nick
    · rename_i hsame
      refine hspoken.1.kept (CacheKept.updClient _ a (fun _ => rfl) fun k hk _ ch => ?_)
      rw [hspoken.2, hs] at hk
      obtain rfl := Option.some.inj hk
      exact isBanned_congr (irccmp_strlcpy (by simpa using hsame)) rfl rfl rfl rfl rfl

theorem meSvsnick (h : s.CacheInv cfg) (now newts : ℤ) (a : ℕ) (nick : Str) :
    (s.meSvsnick now newts a nick).CacheInv cfg := by
  unfold Server.meSvsnick
  split
  · exact h.renewNick_setNick _ a nick
  · exact h

theorem changeRemoteNick (h : s.CacheInv cfg) (ts : ℤ) (a : ℕ) (nick : Str) :
    (s.changeRemoteNick ts a nick).CacheInv cfg := by
  unfold Server.changeRemoteNick
  split
  · rename_i ha
    rw [setNick, updClient_updClient]
    refine h.kept (CacheKept.updClient_remote s a (fun _ => rfl) ?_)
    cases hs : s.client? a with
    | none => rfl
    | some k =>
      simp only [hs, Option.any_some, Bool.and_eq_true, Bool.not_eq_true'] at ha
      simp [Client.myClient, ha.2]
  · exact h

theorem svsmodeLetter (h : s.CacheInv cfg) {virthost : Str → Str} {a : ℕ} {adding : Bool}
    {letter : Char} (hfit : (letter != 'x' || s.cloakFits cfg virthost a adding) = true) :
    (s.svsmodeLetter cfg virthost a adding letter).CacheInv cfg := by
  unfold Server.svsmodeLetter
  split
  · exact h
  split
  · rename_i hx
    refine h.cloakLetter ?_
    simpa [hx] using hfit
  split
  · split
    · exact (h.doJoin0 a).kept (CacheKept.updClient_ident _ a (fun _ => rfl) fun _ => rfl)
    · exact h.kept (CacheKept.updClient_ident s a (fun _ => rfl) fun _ => rfl)
  split
  · split
    · exact h.kept (CacheKept.updClient_ident s a (fun _ => rfl) fun _ => rfl)
    · exact h.kept (CacheKept.updClient_ident s a (fun _ => rfl) fun _ => rfl)
  split
  · exact h.kept (CacheKept.updClient_ident s a (fun _ => rfl) fun _ => rfl)
  · exact h

theorem svsmodeScan {virthost : Str → Str} {a : ℕ} (text : Str) {what : Bool}
    (h : s.CacheInv cfg) (hfit : svsmodeScanFits cfg virthost a what text s = true) :
    (svsmodeScan cfg virthost a what text s).CacheInv cfg := by
  induction text generalizing what s with
  | nil => exact h
  | cons c cs ih =>
      rw [svsmodeScanFits] at hfit
      rw [Server.svsmodeScan]
      split
      · rename_i hc
        rw [if_pos hc] at hfit
        exact ih h hfit
      rename_i hplus
      rw [if_neg hplus] at hfit
      split
      · rename_i hc
        rw [if_pos hc] at hfit
        exact ih h hfit
      · rename_i hminus
        rw [if_neg hminus, Bool.and_eq_true] at hfit
        exact ih (h.svsmodeLetter hfit.1) hfit.2

theorem meSvsmode (h : s.CacheInv cfg) {virthost : Str → Str} {find : Str → Option ℕ} {a : ℕ}
    {parv : List Str} (hfit : s.svsmodeFits cfg virthost find a parv = true) :
    (s.meSvsmode cfg virthost find a parv).CacheInv cfg := by
  unfold Server.meSvsmode
  split
  · rename_i source nick ts modes hs
    split
    · exact h
    rename_i target ht
    split
    · exact h
    split
    · exact h
    · rename_i hguard hts
      refine svsmodeScan _ h ?_
      simp only [svsmodeFits, hs, ht, Option.all_some, Bool.or_eq_true, Bool.not_eq_true',
        List.isEmpty_iff, Bool.and_eq_true, bne_iff_ne] at hfit
      tauto
  · exact h

theorem addId (h : s.CacheInv cfg) (a c : ℕ) (banid : Str) (type : BanType) :
    (s.addId cfg a c banid type).1.CacheInv cfg := by
  unfold Server.addId
  split
  · split
    · exact h
    · extract_lets ban t
      cases type with
      | invex =>
        split
        · exact h
        · exact h.kept (CacheKept.updChannel_lists s c (fun _ => rfl) fun _ => rfl)
      | ban =>
        split
        · exact h.kept (CacheKept.clearBanCache s c)
        · exact h.clear_updChannel c _
      | exception =>
        split
        · exact h.kept (CacheKept.clearBanCache s c)
        · exact h.clear_updChannel c _
  · exact h

theorem delId (h : s.CacheInv cfg) (c : ℕ) (banid : Str) (type : BanType) :
    (s.delId c banid type).1.CacheInv cfg := by
  unfold Server.delId
  split
  · extract_lets ban t
    cases type with
    | invex =>
      split
      · exact h.kept (CacheKept.updChannel_lists s c (fun _ => rfl) fun _ => rfl)
      · exact h
    | ban =>
      split
      · exact h.clear_updChannel c _
      · exact h.kept (CacheKept.clearBanCache s c)
    | exception =>
      split
      · exact h.clear_updChannel c _
      · exact h.kept (CacheKept.clearBanCache s c)
  · exact h

theorem joinFound (h : s.CacheInv cfg) {now : ℤ} {a : ℕ} {source : Client} {c : ℕ}
    {ch : Channel} {flags : MemberFlags} {key : Option Str} (ha : (s.client? a).isSome = true)
    (hc : (s.channel? c).isSome = true) (hf : Disjoint flags banCacheFlags) :
    (s.joinFound cfg now a source c ch flags key).1.CacheInv cfg := by
  unfold Server.joinFound
  split
  · exact h
  · extract_lets s₁ s₂
    have h₁ : s₁.CacheInv cfg := h.addUserToChannel ha hc hf
    have h₂ : s₂.CacheInv cfg := by
      dsimp only [s₂]
      split
      · exact h₁.kept (CacheKept.updChannel_lists s₁ c (fun _ => rfl) fun _ => rfl)
      · exact h₁
    exact h₂.kept (CacheKept.updClient_ident s₂ a (fun _ => rfl) fun _ => rfl)

theorem joinChannel (h : s.CacheInv cfg) {now : ℤ} {splitmode : Bool} {a : ℕ} {source : Client}
    {chan : Str} {key : Option Str} (ha : (s.client? a).isSome = true) :
    (s.joinChannel cfg now splitmode a source chan key).1.CacheInv cfg := by
  unfold Server.joinChannel
  extract_lets split s' c
  iterate 4
    split
    · exact h
  split
  · rename_i d hd
    split
    · exact h
    split
    · exact h
    split
    · rename_i ch hch
      refine h.joinFound ha (Option.isSome_of_eq_some hch) ?_
      split <;> decide
    · exact h
  · split
    · exact h
    split
    · rename_i ch hch
      exact (h.makeChannel now chan).joinFound ha (Option.isSome_of_eq_some hch) (by decide)
    · exact h

theorem joinLoop {now : ℤ} {splitmode : Bool} {a : ℕ} {forward : ℕ → Str → Server → Server}
    (hforward : ∀ i text (s : Server), s.CacheInv cfg → (forward i text s).CacheInv cfg)
    (chans : List Str) (i : ℕ) (keyList : Option Str) (h : s.CacheInv cfg) :
    (joinLoop cfg now splitmode a forward i chans keyList s).CacheInv cfg := by
  induction chans generalizing i keyList s with
  | nil => exact h
  | cons chan chans ih =>
      rw [Server.joinLoop]
      split
      · exact h
      · rename_i source hs
        have hstep : (s.joinChannel cfg now splitmode a source chan
            (takeKey keyList).1).1.CacheInv cfg := h.joinChannel (Option.isSome_of_eq_some hs)
        split
        · rename_i heq
          rw [heq] at hstep
          exact hstep
        · rename_i heq
          rw [heq] at hstep
          exact ih _ _ hstep
        · rename_i text heq
          rw [heq] at hstep
          split
          · exact ih _ _ hstep
          · exact ih _ _ (hforward i text _ hstep)

theorem mJoin {now : ℤ} {splitmode : Bool} {a : ℕ} (keys : List ℕ → Option Str) (depth : ℕ)
    (path : List ℕ) (chans : Str) (h : s.CacheInv cfg) :
    (mJoin cfg now splitmode a keys depth path chans s).CacheInv cfg := by
  induction depth generalizing path chans s with
  | zero => exact h
  | succ depth ih =>
      rw [Server.mJoin]
      split
      · exact h
      split
      · exact h
      · refine joinLoop (fun i text t ht => ih (i :: path) text ht) _ _ _ ?_
        split
        · exact h.doJoin0 a
        · exact h

theorem msJoinMerge (h : s.CacheInv cfg) {b : JoinBuffers} {a : ℕ} {source : Client} {newts : ℤ}
    {isnew : Bool} {c : ℕ} {ch : Channel} (ha : (s.client? a).isSome = true)
    (hc : (s.channel? c).isSome = true) :
    (s.msJoinMerge cfg b a source newts isnew c ch).1.CacheInv cfg := by
  unfold Server.msJoinMerge
  extract_lets v mode b₁ s₁ servername removal s₂ texts s₃
  have hk : CacheKept cfg s s₂ := by
    have h₁ : CacheKept cfg s s₁ :=
      CacheKept.updChannel_lists s c (fun _ => rfl) fun _ => rfl
    refine h₁.trans ?_
    dsimp only [s₂]
    split
    · exact CacheKept.refl s₁
    · exact CacheKept.removeOurModes s₁ c
  change s₃.CacheInv cfg
  dsimp only [s₃]
  split
  · exact h.kept hk
  · refine (h.kept hk).addUserToChannel ?_ ?_ (by decide)
    · rwa [isSome_client?, hk.shape.listed, ← isSome_client?]
    · rwa [isSome_channel?, hk.shape.listed, ← isSome_channel?]

theorem msJoin (h : s.CacheInv cfg) (now : ℤ) (b : JoinBuffers) (a : ℕ) (parv : List Str) :
    (s.msJoin cfg now b a parv).1.CacheInv cfg := by
  unfold Server.msJoin
  split
  · split
    · exact h
    · exact h.doJoin0 a
  · rename_i source ts chname _ _ hs
    split
    · exact h
    · cases hf : s.findOrMake now chname with
      | mk s' rest =>
        obtain ⟨hs', hcl⟩ := h.findOrMake now chname hf
        dsimp only
        split
        · rename_i ch hch
          refine hs'.msJoinMerge ?_ (Option.isSome_of_eq_some hch)
          rw [hcl]
          exact Option.isSome_of_eq_some hs
        · exact h
  · exact h

end CacheInv

theorem disjoint_of_lookup {x : Char} {flag : MemberFlag} (h : nickPrefixes.lookup x = some flag) :
    flag ∉ banCacheFlags := by
  have hall : ∀ p ∈ nickPrefixes, p.2 ∉ banCacheFlags := by decide
  obtain ⟨l₁, l₂, hl, -⟩ := List.lookup_eq_some_iff.mp h
  exact hall (x, flag) (by simp [hl])

theorem disjoint_readPrefixes (text : Str) : Disjoint (readPrefixes text).1 banCacheFlags := by
  induction text with
  | nil => exact Finset.disjoint_empty_left _
  | cons x xs ih =>
      rw [readPrefixes]
      split
      · rename_i flag hx
        exact Finset.disjoint_insert_left.mpr ⟨disjoint_of_lookup hx, ih⟩
      · exact Finset.disjoint_empty_left _

theorem disjoint_believedFlags (keepNewModes : Bool) {flags : MemberFlags}
    (h : Disjoint flags banCacheFlags) :
    Disjoint (believedFlags keepNewModes flags) banCacheFlags := by
  unfold believedFlags
  split
  · exact h
  split
  · exact Finset.disjoint_empty_left _
  · decide

theorem disjoint_svsjoinPrefix (text : Str) : Disjoint (svsjoinPrefix text).1 banCacheFlags := by
  unfold svsjoinPrefix
  split
  · exact Finset.disjoint_empty_left _
  split
  · rename_i flag hx
    exact Finset.disjoint_singleton_left.mpr (disjoint_of_lookup hx)
  · exact Finset.disjoint_empty_left _

namespace CacheInv

theorem sjoinNicks (find : Str → Option ℕ) (link c : ℕ) (keepNewModes : Bool) (words : List Str)
    (h : s.CacheInv cfg) (hc : (s.channel? c).isSome = true) :
    (words.foldl (fun s word => s.sjoinNick find link c keepNewModes word) s).CacheInv cfg := by
  induction words generalizing s with
  | nil => exact h
  | cons word words ih =>
      have hstep : (s.sjoinNick find link c keepNewModes word).CacheInv cfg ∧
          ((s.sjoinNick find link c keepNewModes word).channel? c).isSome = true := by
        unfold Server.sjoinNick
        split
        · exact ⟨h, hc⟩
        split
        · rename_i ha
          split
          · exact ⟨h, hc⟩
          · refine ⟨h.addUserToChannel (Option.isSome_of_any ha) hc ?_, ?_⟩
            · exact disjoint_believedFlags _ (disjoint_readPrefixes word)
            · rwa [channel?_addUserToChannel]
        · exact ⟨h, hc⟩
      exact ih hstep.1 hstep.2

theorem removeBanLists (h : s.CacheInv cfg) (c : ℕ) : (s.removeBanLists c).CacheInv cfg := by
  rw [Server.removeBanLists, clearBanCache_updChannel]
  exact h.clear_updChannel c _

theorem msSjoinMerge (h : s.CacheInv cfg) {find : Str → Option ℕ} {link : ℕ} {source : Client}
    {hdr : SjoinHeader} {isnew : Bool} {c : ℕ} {ch : Channel}
    (hc : (s.channel? c).isSome = true) :
    (s.msSjoinMerge cfg find link source hdr isnew c ch).CacheInv cfg := by
  unfold Server.msSjoinMerge
  extract_lets v mode s₁ s₂ modes s₃
  have hk : CacheKept cfg s s₂ := by
    have h₁ : CacheKept cfg s s₁ :=
      CacheKept.updChannel_lists s c (fun _ => rfl) fun _ => rfl
    refine h₁.trans ?_
    dsimp only [s₂]
    split
    · exact CacheKept.refl s₁
    · exact CacheKept.removeOurModes s₁ c
  have hc₂ : (s₂.channel? c).isSome = true := by
    rwa [isSome_channel?, hk.shape.listed, ← isSome_channel?]
  have h₃ : s₃.CacheInv cfg := sjoinNicks find link c _ _ (h.kept hk) hc₂
  split
  · exact h.kept hk
  split
  · rename_i hnil
    exact h₃.destroyChannel hnil.1
  split
  · exact h₃
  split
  · exact h₃.removeBanLists c
  · exact h₃

theorem msSjoin (h : s.CacheInv cfg) (now : ℤ) (find : Str → Option ℕ) (link a : ℕ)
    (parv : List Str) : (s.msSjoin cfg now find link a parv).CacheInv cfg := by
  unfold Server.msSjoin
  split
  · rename_i source hdr _ _
    split
    · exact h
    · cases hf : s.findOrMake now hdr.chname with
      | mk s' rest =>
        obtain ⟨hs', -⟩ := h.findOrMake now hdr.chname hf
        dsimp only
        split
        · rename_i ch hch
          exact hs'.msSjoinMerge (Option.isSome_of_eq_some hch)
        · exact h
  · exact h

theorem partOneClient (h : s.CacheInv cfg) (a : ℕ) (name : Str) :
    (s.partOneClient a name).CacheInv cfg := by
  unfold Server.partOneClient
  split
  · exact h
  · rename_i c _
    cases s.findChannelLink a c with
    | none => exact h
    | some m => exact h.removeUserFromChannel m

theorem mPart (h : s.CacheInv cfg) (a : ℕ) (chans : Str) : (s.mPart a chans).CacheInv cfg := by
  unfold Server.mPart
  split
  · generalize commaTokens chans = l
    clear * - h
    induction l generalizing s with
    | nil => exact h
    | cons name l ih => exact ih (h.partOneClient a name)
  · exact h

theorem mKick (h : s.CacheInv cfg) (find : Str → Option ℕ) (a : ℕ) (chan user : Str) :
    (s.mKick find a chan user).CacheInv cfg := by
  unfold Server.mKick
  split
  · extract_lets ms
    split
    · split
      · exact h
      split
      · exact h
      split
      · split
        · exact h.removeUserFromChannel _
        · exact h
      · exact h
    · exact h
  · exact h

theorem meSvsjoin (h : s.CacheInv cfg) (now : ℤ) (find : Str → Option ℕ) (a : ℕ)
    (nick chan : Str) : (s.meSvsjoin cfg now find a nick chan).CacheInv cfg := by
  unfold Server.meSvsjoin
  split
  · rename_i target _ _
    extract_lets name made
    split
    · exact h
    rename_i hguard
    have hmy : (s.client? target).any Client.myClient = true := by
      simpa using (not_or.mp hguard).2
    have ha := Option.isSome_of_any hmy
    split
    · rename_i c hc
      split
      · exact h
      · refine h.addUserToChannel ha ?_ (disjoint_svsjoinPrefix chan)
        have hfound := List.find?_some hc
        exact Option.isSome_of_any hfound
    · split
      · exact h
      split
      · exact h
      · refine CacheInv.kept ?_ (CacheKept.updChannel_lists _ _ (fun _ => rfl) fun _ => rfl)
        exact (h.makeChannel now name).addUserToChannel ha
          (Option.isSome_of_eq_some (channel?_makeChannel s now name)) (by decide)
  · exact h

theorem meSvspart (h : s.CacheInv cfg) (find : Str → Option ℕ) (a : ℕ) (nick chan : Str) :
    (s.meSvspart find a nick chan).CacheInv cfg := by
  unfold Server.meSvspart
  split
  · split
    · exact h
    · exact h.partOneClient _ chan
  · exact h

theorem introduce (h : s.CacheInv cfg) (who : Client) : (s.introduce who).CacheInv cfg := by
  unfold Server.introduce
  refine CacheInv.kept ?_ (CacheKept.updClient_ident _ _ (fun k => by split <;> rfl)
    fun k => by split <;> rfl)
  refine h.setLeft (fun _ m r hm hleft => ?_) (Nat.le_succ _) fun _ => Nat.lt_succ_self _
  exact absurd (h.link hm).2.1 (by omega)

theorem exitOneClient (h : s.CacheInv cfg) (a : ℕ) : (s.exitOneClient a).CacheInv cfg := by
  unfold Server.exitOneClient
  split
  · exact h
  · rename_i source _
    extract_lets s₁ s₂
    have h₁ : s₁.CacheInv cfg := h.kept (CacheKept.updClient_ident _ _
      (fun k => by split <;> rfl) fun k => by split <;> rfl)
    have h₂ : s₂.CacheInv cfg := by
      dsimp only [s₂]
      split
      · exact h₁.doJoin0 a
      · exact h₁
    exact h₂.setLeft (by simp) le_rfl (by simp)

theorem exits (h : s.CacheInv cfg) (l : List ℕ) :
    (l.foldl Server.exitOneClient s).CacheInv cfg := by
  induction l generalizing s with
  | nil => exact h
  | cons a l ih => exact ih (h.exitOneClient a)

theorem recurseRemoveClients (h : s.CacheInv cfg) (depth a : ℕ) :
    (recurseRemoveClients depth s a).CacheInv cfg := by
  induction depth generalizing s a with
  | zero => exact h
  | succ depth ih =>
      rw [Server.recurseRemoveClients]
      split
      · exact h
      · rename_i source _
        have h' := h.exits source.users
        generalize source.users.foldl Server.exitOneClient s = t at h'
        dsimp only
        generalize source.servers = l
        induction l generalizing t with
        | nil => exact h'
        | cons b l ihl => exact ihl _ ((ih h' b).exitOneClient b)

theorem exitClient (h : s.CacheInv cfg) (depth a : ℕ) : (s.exitClient depth a).CacheInv cfg := by
  unfold Server.exitClient
  refine CacheInv.exitOneClient ?_ a
  split
  · exact h
  · exact h.recurseRemoveClients depth a

/-- Every event keeps the cached verdicts, if it keeps the hosts. -/
theorem step (s : Server) (e : Event) (h : s.CacheInv cfg) (he : Event.KeepsHost cfg s e) :
    (s.step cfg e).CacheInv cfg := by
  cases e with
  | introduce who => exact h.introduce who
  | join now splitmode a keys depth chans =>
      rw [Server.step]
      split
      · exact mJoin keys depth [] chans h
      · exact h
  | remoteJoin now b a parv => exact h.msJoin now b a parv
  | sjoin now find link a parv => exact h.msSjoin now find link a parv
  | part a chans => exact h.mPart a chans
  | kick find a chan user => exact h.mKick find a chan user
  | svsjoin now find a nick chan => exact h.meSvsjoin now find a nick chan
  | svspart find a nick chan => exact h.meSvspart find a nick chan
  | exit depth a => exact h.exitClient depth a
  | addId a c banid type => exact h.addId a c banid type
  | delId c banid type => exact h.delId c banid type
  | send a c msg => exact h.canSend a c msg
  | localNick now tooFast a nick => exact h.changeLocalNick now tooFast a nick
  | svsnick now newts a nick => exact h.meSvsnick now newts a nick
  | remoteNick ts a nick => exact h.changeRemoteNick ts a nick
  | chghost find a nick host => exact h.meChghost he
  | userModeX virthost link a adding =>
      rw [Event.KeepsHost, userModeXFits] at he
      rw [Server.step, setUserModeX]
      split
      · rename_i hlink
        rw [hlink] at he
        exact h.cloakLetter (by simpa using he)
      · exact h
  | svsmode virthost find a parv => exact h.meSvsmode he
  | channelMode c mode => exact h.kept (CacheKept.updChannel_lists s c (fun _ => rfl) fun _ => rfl)
  | memberMode m adding flag =>
      rw [Server.step]
      split
      · rename_i hstatus
        refine h.kept (CacheKept.updFlags_of_congr s m fun flags f hf => ?_)
        have hne : f ≠ flag := by
          rintro rfl
          have hd : Disjoint statusFlags banCacheFlags := by decide
          exact Finset.disjoint_left.mp hd hstatus hf
        split <;> simp [hne]
      · exact h
  | umode a oper gringo => exact h.kept (CacheKept.updClient_ident s a (fun _ => rfl) fun _ => rfl)
  | invite a c => exact h.kept (CacheKept.updClient_ident s a (fun _ => rfl) fun _ => rfl)

end CacheInv

/-- What the claim of a sound ban cache says of a state. The second part is about
`can_send`: without the flags of the cache it gives the same result. -/
structure BanCacheSound (cfg : Config) (s : Server) : Prop where
  verdict : ∀ m r who ch, s.graph.links m = some r → s.client? r.left = some who →
    who.myClient = true → s.channel? r.right = some ch → chflBanChecked ∈ r.label →
      (chflBanSilenced ∈ r.label ↔ isBanned cfg ch who = true)
  canSend : ∀ a c msg m, s.findChannelLink a c = some m → (s.canSend cfg a c msg).2 =
    ((s.updFlags m (· \ banCacheFlags)).canSend cfg a c msg).2

/-- The result for a member whose flags are sound is that of `is_banned`. -/
theorem canSendMember_result {r : Link MemberFlags} {m : ℕ} {ch : Channel} {source : Client}
    (hm : s.graph.links m = some r)
    (hc : source.myClient = true → Cached cfg ch source r.label) (msg : Message) :
    (s.canSendMember cfg ch source m msg).2 =
      if ¬ Disjoint r.label statusFlags then .opv
      else if (cfg.quietOnBan = true ∧ source.myClient = true) ∧ isBanned cfg ch source = true then
        .no
      else canSendModes ch source msg := by
  simp only [Server.canSendMember, hm, Option.elim_some]
  by_cases hstatus : Disjoint r.label statusFlags
  · by_cases hquiet : cfg.quietOnBan = true ∧ source.myClient = true
    · obtain ⟨hsc, hv⟩ := hc hquiet.2
      by_cases hs : chflBanSilenced ∈ r.label
      · have hban := (hv (hsc hs)).mp hs
        simp [hstatus, hquiet, hs, hban]
      · by_cases hch : chflBanChecked ∈ r.label
        · have hban : ¬ isBanned cfg ch source = true := fun hb => hs ((hv hch).mpr hb)
          simp [hstatus, hquiet, hs, hch, hban]
        · by_cases hban : isBanned cfg ch source = true
          · simp [hstatus, hquiet, hs, hch, hban]
          · simp [hstatus, hquiet, hs, hch, hban]
    · simp [hstatus, hquiet]
  · simp [hstatus]

theorem CacheInv.banCacheSound (h : s.CacheInv cfg) : BanCacheSound cfg s where
  verdict := fun m r who ch hm hwho hmy hch hc => (h.sound hm who ch hwho hmy hch).2 hc
  canSend := by
    intro a c msg m hlink
    have hlink' : (s.updFlags m (· \ banCacheFlags)).findChannelLink a c = some m := by
      rw [(Relabels.updFlags s m _).findChannelLink, hlink]
    obtain ⟨r, hr, hleft, hright⟩ := h.findChannelLink_eq_some hlink
    have hr' : (s.updFlags m (· \ banCacheFlags)).graph.links m =
        some { r with label := r.label \ banCacheFlags } := by
      simp only [updFlags, LinkGraph.mapLabel, Function.update_self, hr, Option.map_some]
    have hstatus : Disjoint (r.label \ banCacheFlags) statusFlags ↔
        Disjoint r.label statusFlags := by
      have hd : statusFlags \ banCacheFlags = statusFlags := by decide
      rw [disjoint_sdiff_comm, hd]
    simp only [Server.canSend, client?_updFlags, channel?_updFlags, hlink, hlink']
    split
    · rename_i source ch hs hch
      split
      · rfl
      split
      · rfl
      · have hsound : source.myClient = true → Cached cfg ch source r.label :=
          fun hmy => h.sound hr source ch (hleft ▸ hs) hmy (hright ▸ hch)
        rw [canSendMember_result hr hsound, canSendMember_result hr' fun _ =>
          Cached.of_disjoint Finset.sdiff_disjoint]
        simp only [hstatus]
    · rfl

/-- In every run that keeps the hosts of local users with checked memberships, the
ban cache of every state is sound. -/
theorem banCacheSound_run (events : List Event)
    (h : Runs.Each (step cfg) (Event.KeepsHost cfg) init events) :
    BanCacheSound cfg (run cfg events) :=
  (Runs.invariant CacheInv.step CacheInv.init h).banCacheSound

/-- Two local users in a channel; one of them has spoken, and is then banned. -/
def spokenRun : List Event :=
  [.introduce (Client.make "me".toList false false),
    .introduce (Client.make "a".toList true true), .introduce (Client.make "b".toList true true),
    .join 1700000000 false 1 (fun _ => none) 2 "#c".toList,
    .join 1700000000 false 2 (fun _ => none) 2 "#c".toList,
    .addId 1 0 "*!*@d".toList .ban, .send 2 0 ⟨false, false, none⟩]

/-- The host of the other one, who has no checked membership, is changed. -/
theorem banCacheSound_run_chghost : BanCacheSound Config.default (run Config.default
    (spokenRun ++ [.chghost (fun _ => some 1) 0 "a".toList "d".toList])) :=
  banCacheSound_run _ ⟨trivial, trivial, trivial, trivial, trivial, trivial, trivial,
    by unfold Event.KeepsHost; decide, trivial⟩

/-- The host of the one who has spoken is changed to a banned one. -/
theorem not_banCacheSound_chghost : ¬ BanCacheSound Config.default (run Config.default
    (spokenRun ++ [.chghost (fun _ => some 2) 0 "b".toList "d".toList])) := by
  intro h
  have hsend := h.canSend 2 0 ⟨false, false, none⟩ 1 (by decide)
  exact absurd hsend (by decide)

end Server

end Unirc
