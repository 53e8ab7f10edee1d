import Unirc.Leaving
import Unirc.LocalJoin
import Unirc.NickHost
import Unirc.RemoteJoin
import Unirc.Runs
import Unirc.SjoinHandler

/-!
# Runs of the server

The events that act on clients, channels and memberships, in any order, and the
membership graph they leave.
-/

namespace Unirc

open MemberFlag

/-- An event with its source, its parameters and what the code looks up outside
this state: clients by name, the time, the limits on floods. -/
inductive Event where
  | introduce (who : Client)
  | join (now : ℤ) (splitmode : Bool) (a : ℕ) (keys : List ℕ → Option Str) (depth : ℕ)
      (chans : Str)
  | remoteJoin (now : ℤ) (b : JoinBuffers) (a : ℕ) (parv : List Str)
  | sjoin (now : ℤ) (find : Str → Option ℕ) (link a : ℕ) (parv : List Str)
  | part (a : ℕ) (chans : Str)
  | kick (find : Str → Option ℕ) (a : ℕ) (chan user : Str)
  | svsjoin (now : ℤ) (find : Str → Option ℕ) (a : ℕ) (nick chan : Str)
  | svspart (find : Str → Option ℕ) (a : ℕ) (nick chan : Str)
  | exit (depth a : ℕ)
  | addId (a c : ℕ) (banid : Str) (type : BanType)
  | delId (c : ℕ) (banid : Str) (type : BanType)
  | send (a c : ℕ) (msg : Message)
  | localNick (now : ℤ) (tooFast : Bool) (a : ℕ) (nick : Str)
  | svsnick (now newts : ℤ) (a : ℕ) (nick : Str)
  | remoteNick (ts : ℤ) (a : ℕ) (nick : Str)
  | chghost (find : Str → Option ℕ) (a : ℕ) (nick host : Str)
  | userModeX (virthost : Str → Str) (link a : ℕ) (adding : Bool)
  | svsmode (virthost : Str → Str) (find : Str → Option ℕ) (a : ℕ) (parv : List Str)
  | channelMode (c : ℕ) (mode : Mode)
  | memberMode (m : ℕ) (adding : Bool) (flag : MemberFlag)
  | umode (a : ℕ) (oper gringo : Bool)
  | invite (a c : ℕ)

namespace Server

variable (cfg : Config)

def step (s : Server) : Event → Server
  | .introduce who => s.introduce who
  | .join now splitmode a keys depth chans =>
      if (s.client? a).any Client.myClient then mJoin cfg now splitmode a keys depth [] chans s
      else s
  | .remoteJoin now b a parv => (s.msJoin cfg now b a parv).1
  | .sjoin now find link a parv => s.msSjoin cfg now find link a parv
  | .part a chans => s.mPart a chans
  | .kick find a chan user => s.mKick find a chan user
  | .svsjoin now find a nick chan => s.meSvsjoin cfg now find a nick chan
  | .svspart find a nick chan => s.meSvspart find a nick chan
  | .exit depth a => s.exitClient depth a
  | .addId a c banid type => (s.addId cfg a c banid type).1
  | .delId c banid type => (s.delId c banid type).1
  | .send a c msg => (s.canSend cfg a c msg).1
  | .localNick now tooFast a nick => s.changeLocalNick cfg now tooFast a nick
  | .svsnick now newts a nick => s.meSvsnick now newts a nick
  | .remoteNick ts a nick => s.changeRemoteNick ts a nick
  | .chghost find a nick host => s.meChghost find a nick host
  | .userModeX virthost link a adding => s.setUserModeX cfg virthost link a adding
  | .svsmode virthost find a parv => s.meSvsmode cfg virthost find a parv
  | .channelMode c mode => s.updChannel c fun ch => { ch with mode := mode }
  | .memberMode m adding flag =>
      if flag ∈ statusFlags then
        s.updFlags m fun flags => if adding then insert flag flags else flags.erase flag
      else s
  | .umode a oper gringo => s.updClient a fun k => { k with oper := oper, gringo := gringo }
  | .invite a c => s.updClient a fun k => { k with invited := c :: k.invited }

def run (events : List Event) : Server := events.foldl (step cfg) init

/-- No server is the source of a JOIN. -/
def Event.FromUser (s : Server) : Event → Prop
  | .remoteJoin _ _ a _ => (s.client? a).all Client.isClient = true
  | _ => True

variable {cfg} {s : Server}

theorem Relabels.setNick (s : Server) (a : ℕ) (nick : Str) : Relabels s (s.setNick a nick) :=
  Relabels.updClient s a fun _ => rfl

theorem Relabels.renewNick (s : Server) (ts : ℤ) (a : ℕ) : Relabels s (s.renewNick ts a) :=
  (Relabels.clearBanCacheClient s a).trans (Relabels.updClient _ a fun _ => rfl)

theorem Relabels.speaksEverywhere (a : ℕ) (ms : List ℕ) (s : Server) :
    Relabels s (speaksEverywhere cfg a ms s).1 := by
  induction ms generalizing s with
  | nil => exact Relabels.refl s
  | cons m ms ih =>
      rw [Server.speaksEverywhere]
      split
      · exact Relabels.refl s
      · rename_i r _
        dsimp only
        split
        · exact (Relabels.canSend s a r.right _).trans (ih _)
        · exact Relabels.canSend s a r.right _

theorem Relabels.changeLocalNick (s : Server) (now : ℤ) (tooFast : Bool) (a : ℕ) (nick : Str) :
    Relabels s (s.changeLocalNick cfg now tooFast a nick) := by
  unfold Server.changeLocalNick
  split
  · exact Relabels.refl s
  · extract_lets spoken
    have hs : Relabels s spoken.1 := by
      dsimp only [spoken]
      split
      · exact Relabels.speaksEverywhere a _ s
      · exact Relabels.refl s
    split
    · exact hs
    split
    · exact (hs.trans (Relabels.renewNick _ now a)).trans (Relabels.setNick _ a nick)
    · exact hs.trans (Relabels.setNick _ a nick)

theorem Relabels.meSvsnick (s : Server) (now newts : ℤ) (a : ℕ) (nick : Str) :
    Relabels s (s.meSvsnick now newts a nick) := by
  unfold Server.meSvsnick
  split
  · exact (Relabels.renewNick s _ a).trans (Relabels.setNick _ a nick)
  · exact Relabels.refl s

theorem Relabels.changeRemoteNick (s : Server) (ts : ℤ) (a : ℕ) (nick : Str) :
    Relabels s (s.changeRemoteNick ts a nick) := by
  unfold Server.changeRemoteNick
  split
  · refine Relabels.trans ?_ (Relabels.setNick _ a nick)
    exact Relabels.updClient s a fun _ => rfl
  · exact Relabels.refl s

theorem Relabels.meChghost (s : Server) (find : Str → Option ℕ) (a : ℕ) (nick host : Str) :
    Relabels s (s.meChghost find a nick host) := by
  unfold Server.meChghost
  split
  · split
    · exact Relabels.refl s
    split
    · exact Relabels.refl s
    split
    · exact Relabels.updClient s _ fun _ => rfl
    · exact Relabels.refl s
  · exact Relabels.refl s

theorem Relabels.cloakLetter (s : Server) (virthost : Str → Str) (a : ℕ) (adding : Bool) :
    Relabels s (s.cloakLetter cfg virthost a adding) := by
  unfold Server.cloakLetter
  split
  · exact Relabels.refl s
  · split_ifs
    all_goals first
      | exact Relabels.refl s
      | exact Relabels.updClient s a fun _ => rfl

theorem Relabels.setUserModeX (s : Server) (virthost : Str → Str) (link a : ℕ) (adding : Bool) :
    Relabels s (s.setUserModeX cfg virthost link a adding) := by
  unfold Server.setUserModeX
  split
  · exact Relabels.cloakLetter s virthost a adding
  · exact Relabels.refl s

theorem Inv.svsmodeLetter (h : s.Inv none) (virthost : Str → Str) (a : ℕ) (adding : Bool)
    (letter : Char) : (s.svsmodeLetter cfg virthost a adding letter).Inv none := by
  unfold Server.svsmodeLetter
  split
  · exact h
  · split_ifs
    all_goals first
      | exact h
      | exact h.relabel (Relabels.cloakLetter s virthost a adding)
      | exact h.relabel (Relabels.updClient s a fun _ => rfl)
      | exact (h.doJoin0 a).relabel (Relabels.updClient _ a fun _ => rfl)

theorem Inv.meSvsmode (h : s.Inv none) (virthost : Str → Str) (find : Str → Option ℕ) (a : ℕ)
    (parv : List Str) : (s.meSvsmode cfg virthost find a parv).Inv none := by
  have hscan : ∀ (text : Str) (target : ℕ) (what : Bool) (t : Server), t.Inv none →
      (svsmodeScan cfg virthost target what text t).Inv none := by
    intro text
    induction text with
    | nil => exact fun _ _ _ ht => ht
    | cons c cs ih =>
        intro target what t ht
        rw [svsmodeScan]
        split
        · exact ih _ _ _ ht
        split
        · exact ih _ _ _ ht
        · exact ih _ _ _ (ht.svsmodeLetter virthost target what c)
  unfold Server.meSvsmode
  split
  · split
    · exact h
    split
    · exact h
    split
    · exact h
    · exact hscan _ _ _ s h
  · exact h

/-- Every event keeps the membership graph sound. -/
theorem Inv.step (s : Server) (e : Event) (h : s.Inv none) (he : Event.FromUser s e) :
    (s.step cfg e).Inv none := by
  cases e with
  | introduce who => exact h.introduce who
  | join now splitmode a keys depth chans =>
      rw [Server.step]
      split
      · rename_i ha
        refine (Inv.mJoin keys depth [] chans h ?_).1
        cases hw : s.client? a with
        | none => simp [hw] at ha
        | some who =>
          simp only [hw, Option.any_some, Client.myClient, Bool.and_eq_true] at ha
          exact ha.2
      · exact h
  | remoteJoin now b a parv => exact h.msJoin he
  | sjoin now find link a parv => exact h.msSjoin
  | part a chans => exact h.mPart a chans
  | kick find a chan user => exact h.mKick find a chan user
  | svsjoin now find a nick chan => exact h.meSvsjoin now find a nick chan
  | svspart find a nick chan => exact h.meSvspart find a nick chan
  | exit depth a => exact h.exitClient depth a
  | addId a c banid type => exact h.relabel (Relabels.addId s a c banid type)
  | delId c banid type => exact h.relabel (Relabels.delId s c banid type)
  | send a c msg => exact h.relabel (Relabels.canSend s a c msg)
  | localNick now tooFast a nick => exact h.relabel (Relabels.changeLocalNick s now tooFast a nick)
  | svsnick now newts a nick => exact h.relabel (Relabels.meSvsnick s now newts a nick)
  | remoteNick ts a nick => exact h.relabel (Relabels.changeRemoteNick s ts a nick)
  | chghost find a nick host => exact h.relabel (Relabels.meChghost s find a nick host)
  | userModeX virthost link a adding =>
      exact h.relabel (Relabels.setUserModeX s virthost link a adding)
  | svsmode virthost find a parv => exact h.meSvsmode virthost find a parv
  | channelMode c mode => exact h.relabel (Relabels.updChannel s c _)
  | memberMode m adding flag =>
      rw [Server.step]
      split
      · exact h.relabel (Relabels.updFlags s m _)
      · exact h
  | umode a oper gringo => exact h.relabel (Relabels.updClient s a fun _ => rfl)
  | invite a c => exact h.relabel (Relabels.updClient s a fun _ => rfl)

/-- What the claim of a sound membership graph says of a state. -/
structure MembershipGraph (s : Server) : Prop where
  linked : ∀ m r, s.graph.links m = some r → m ∈ s.members r.right ∧ m ∈ s.memberships r.left
  recorded : ∀ m c, m ∈ s.members c → ∃ r, s.graph.links m = some r ∧ r.right = c
  held : ∀ m a, m ∈ s.memberships a → ∃ r, s.graph.links m = some r ∧ r.left = a
  unique : ∀ m m' r r', s.graph.links m = some r → s.graph.links m' = some r' →
    r.left = r'.left → r.right = r'.right → m = m'
  nonempty : ∀ c ∈ s.globalChannelList, s.members c ≠ []

theorem Inv.membershipGraph (h : s.Inv none) : s.MembershipGraph where
  linked := by
    intro m r hr
    obtain ⟨l, hl, hm⟩ := h.wf.listed_at hr .right
    obtain ⟨l', hl', hm'⟩ := h.wf.listed_at hr .left
    have hright : r.at .right = r.right := rfl
    have hleft : r.at .left = r.left := rfl
    rw [hright] at hl
    rw [hleft] at hl'
    simp only [members, memberships, hl, hl', Option.getD_some]
    exact ⟨hm, hm'⟩
  recorded := by
    intro m c hm
    cases hl : s.graph.listed .right c with
    | none => simp [members, hl] at hm
    | some l => exact h.wf.link_at hl (by simpa [members, hl] using hm)
  held := by
    intro m a hm
    cases hl : s.graph.listed .left a with
    | none => simp [memberships, hl] at hm
    | some l => exact h.wf.link_at hl (by simpa [memberships, hl] using hm)
  unique := h.simple
  nonempty := by
    intro c hc hnil
    obtain ⟨l, hl⟩ := Option.isSome_iff_exists.mp ((h.list c).mp hc)
    exact h.member hl (by simp) (by simpa [members, hl] using hnil)

/-- In every run without a JOIN whose source is a server, every state has a sound
membership graph. -/
theorem membershipGraph_run (events : List Event)
    (h : Runs.Each (step cfg) Event.FromUser init events) : (run cfg events).MembershipGraph :=
  (Runs.invariant (fun s e hs he => Inv.step s e hs he) Inv.init h).membershipGraph

/-- A local user joins a channel, another server's user joins it too, the first
one leaves. -/
theorem membershipGraph_run_part :
    (run Config.default [.introduce (Client.make "me".toList false false),
      .introduce (Client.make "a".toList true true), .introduce (Client.make "b".toList true false),
      .join 1700000000 false 1 (fun _ => none) 2 "#c".toList,
      .remoteJoin 1700000000 JoinBuffers.init 2 ["1700000000".toList, "#c".toList, ['+']],
      .part 1 "#c".toList]).MembershipGraph :=
  membershipGraph_run _ ⟨trivial, trivial, trivial, trivial,
    by unfold Event.FromUser; decide, trivial, trivial⟩

/-- A server that joins twice has two memberships, since `IsMember` is false of it. -/
theorem not_membershipGraph_serverJoin :
    ¬ (run Config.default [.introduce (Client.make "me".toList false false),
      .remoteJoin 1700000000 JoinBuffers.init 0 ["1700000000".toList, "#c".toList, ['+']],
      .remoteJoin 1700000000 JoinBuffers.init 0 ["1700000000".toList, "#c".toList, ['+']]
      ]).MembershipGraph := by
  intro h
  have hlinks : ∀ m < 2, (run Config.default [.introduce (Client.make "me".toList false false),
      .remoteJoin 1700000000 JoinBuffers.init 0 ["1700000000".toList, "#c".toList, ['+']],
      .remoteJoin 1700000000 JoinBuffers.init 0 ["1700000000".toList, "#c".toList, ['+']]
      ]).graph.joined m = some (0, 0) := by
    decide
  obtain ⟨r, hr, he⟩ := Option.map_eq_some_iff.mp (hlinks 0 (by decide))
  obtain ⟨r', hr', he'⟩ := Option.map_eq_some_iff.mp (hlinks 1 (by decide))
  have hne := h.unique 0 1 r r' hr hr' (congrArg Prod.fst (he.trans he'.symm))
    (congrArg Prod.snd (he.trans he'.symm))
  exact absurd hne (by decide)

end Server

end Unirc
