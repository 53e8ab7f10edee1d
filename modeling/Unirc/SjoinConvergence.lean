import Mathlib.Data.List.Find
import Unirc.Leaving
import Unirc.SjoinHandler
import Unirc.StampedJoin

/-!
# Convergence of SJOINs

On an existing channel a run of accepted SJOINs folds their timestamps and modes
into the channel's own as stamped values, so that the result depends on the set
of messages only.
-/

namespace Unirc

open Server

/-- An SJOIN with what its processing looks up outside the channel state. -/
structure SjoinMessage where
  now : ℤ
  find : Str → Option ℕ
  link : ℕ
  source : ℕ
  parv : List Str

/-- The timestamp and the mode of the header, if it is well formed. -/
def SjoinMessage.stamped (x : SjoinMessage) : Stamped ℤ Mode :=
  (parseSjoin x.parv).elim ⟨0, Mode.zero⟩ fun h => ⟨h.newts, h.mode⟩

/-- The channel's timestamp and mode. -/
def Channel.stamped (ch : Channel) : Stamped ℤ Mode := ⟨ch.channelts, ch.mode⟩

namespace Server

/-- The message is accepted for the channel `c`, with a timestamp that is not
bogus. -/
structure AcceptsSjoin (s : Server) (c : ℕ) (x : SjoinMessage) : Prop where
  source : (s.client? x.source).map Client.isClient = some false
  header : ((parseSjoin x.parv).map fun h => s.hashFindChannel h.chname) = some (some c)
  believed : 800000000 ≤ x.stamped.stamp

def receive (cfg : Config) (s : Server) (x : SjoinMessage) : Server :=
  s.msSjoin cfg x.now x.find x.link x.source x.parv

/-- The same users and servers, and the same channels under the same names. -/
structure SameNames (s s' : Server) : Prop where
  person : ∀ a, (s'.client? a).map Client.isClient = (s.client? a).map Client.isClient
  list : s'.globalChannelList = s.globalChannelList
  chname : ∀ d, (s'.channel? d).map Channel.chname = (s.channel? d).map Channel.chname

/-- Moreover the same timestamps and modes. -/
structure SameModes (s s' : Server) : Prop extends SameNames s s' where
  stamped : ∀ d, (s'.channel? d).map Channel.stamped = (s.channel? d).map Channel.stamped

variable {s s' s'' : Server} {cfg : Config}

namespace SameNames

theorem trans (h : SameNames s s') (h' : SameNames s' s'') : SameNames s s'' :=
  ⟨fun a => (h'.person a).trans (h.person a), h'.list.trans h.list,
    fun d => (h'.chname d).trans (h.chname d)⟩

theorem hashFindChannel (h : SameNames s s') (name : Str) :
    s'.hashFindChannel name = s.hashFindChannel name := by
  unfold Server.hashFindChannel
  rw [h.list]
  refine List.find?_congr fun d _ => ?_
  have hd := congrArg (Option.any fun b : Buf (CHANNELLEN + 1) => !irccmp b.val name) (h.chname d)
  simpa only [Option.any_map] using hd

theorem accepts (h : SameNames s s') {c : ℕ} {x : SjoinMessage} (hx : s.AcceptsSjoin c x) :
    s'.AcceptsSjoin c x where
  source := (h.person x.source).trans hx.source
  header := by
    simp only [h.hashFindChannel]
    exact hx.header
  believed := hx.believed

theorem updChannel (s : Server) (c : ℕ) {f : Channel → Channel}
    (hf : ∀ ch, (f ch).chname = ch.chname) : SameNames s (s.updChannel c f) := by
  refine ⟨fun _ => rfl, rfl, fun d => ?_⟩
  rw [channel?_updChannel]
  split
  · cases s.channel? d with
    | none => rfl
    | some ch => exact congrArg some (hf ch)
  · rfl

end SameNames

namespace SameModes

theorem refl (s : Server) : SameModes s s := ⟨⟨fun _ => rfl, rfl, fun _ => rfl⟩, fun _ => rfl⟩

theorem trans (h : SameModes s s') (h' : SameModes s' s'') : SameModes s s'' :=
  ⟨h.toSameNames.trans h'.toSameNames, fun d => (h'.stamped d).trans (h.stamped d)⟩

theorem foldl {α : Type*} (f : Server → α → Server) (hf : ∀ s x, SameModes s (f s x))
    (l : List α) (s : Server) : SameModes s (l.foldl f s) := by
  induction l generalizing s with
  | nil => exact refl s
  | cons x l ih => exact (hf s x).trans (ih (f s x))

theorem updFlags (s : Server) (m : ℕ) (f : MemberFlags → MemberFlags) :
    SameModes s (s.updFlags m f) := ⟨⟨fun _ => rfl, rfl, fun _ => rfl⟩, fun _ => rfl⟩

theorem addUserToChannel (s : Server) (c a : ℕ) (flags : MemberFlags) :
    SameModes s (s.addUserToChannel c a flags) := by
  refine ⟨⟨fun b => ?_, rfl, fun d => ?_⟩, fun d => ?_⟩
  · rw [client?_addUserToChannel]
  · rw [channel?_addUserToChannel]
  · rw [channel?_addUserToChannel]

theorem updChannel (s : Server) (c : ℕ) {f : Channel → Channel}
    (hf : ∀ ch, (f ch).chname = ch.chname) (hf' : ∀ ch, (f ch).stamped = ch.stamped) :
    SameModes s (s.updChannel c f) := by
  refine ⟨SameNames.updChannel s c hf, fun d => ?_⟩
  rw [channel?_updChannel]
  split
  · cases s.channel? d with
    | none => rfl
    | some ch => exact congrArg some (hf' ch)
  · rfl

theorem removeOurModes (s : Server) (c : ℕ) : SameModes s (s.removeOurModes c) :=
  foldl _ (fun s (p : MemberFlag × Char) =>
    foldl _ (fun s m => updFlags s m (·.erase p.1)) (s.members c) s) ourModes s

theorem clearBanCache (s : Server) (c : ℕ) : SameModes s (s.clearBanCache c) := by
  refine foldl _ (fun t m => ?_) _ s
  split
  · exact updFlags t m _
  · exact refl t

theorem removeBanLists (s : Server) (c : ℕ) : SameModes s (s.removeBanLists c) := by
  refine SameModes.trans ?_ (clearBanCache _ c)
  exact updChannel s c (fun _ => rfl) fun _ => rfl

theorem sjoinNick (s : Server) (find : Str → Option ℕ) (link c : ℕ) (keepNewModes : Bool)
    (word : Str) : SameModes s (s.sjoinNick find link c keepNewModes word) := by
  unfold Server.sjoinNick
  split
  · exact refl s
  split
  · split
    · exact refl s
    · exact addUserToChannel s c _ _
  · exact refl s

end SameModes

/-- An existing channel takes the stamped value of the message in. -/
theorem msSjoinMerge_stamped {find : Str → Option ℕ} {link c : ℕ} {source : Client}
    {h : SjoinHeader} {ch : Channel} (hch : s.channel? c = some ch) (hts : ch.channelts ≠ 0)
    (hnew : 800000000 ≤ h.newts) :
    SameNames s (s.msSjoinMerge cfg find link source h false c ch) ∧
      ((s.msSjoinMerge cfg find link source h false c ch).channel? c).map Channel.stamped =
        some (ch.stamped ⊔ ⟨h.newts, h.mode⟩) := by
  have hbogus : checkBogusTs cfg.ignoreBogusTs h.newts ch.channelts = h.newts := by
    rw [checkBogusTs, if_neg]
    omega
  have hmerge := tsVerdict_merge (show h.newts ≠ 0 by omega) hts h.mode ch.mode
  rw [← hbogus] at hmerge
  unfold Server.msSjoinMerge
  extract_lets v mode s₁ s₂ modes s₃
  have h₁ : SameNames s s₁ := SameNames.updChannel s c fun _ => rfl
  have hc₁ : (s₁.channel? c).map Channel.stamped = some (ch.stamped ⊔ ⟨h.newts, h.mode⟩) := by
    dsimp only [s₁]
    rw [channel?_updChannel, if_pos rfl, hch]
    rw [hbogus] at hmerge
    refine congrArg some (Eq.trans ?_ hmerge)
    simp only [Channel.stamped, v, mode, hbogus]
  have h₂ : SameModes s₁ s₂ := by
    dsimp only [s₂]
    split
    · exact SameModes.refl s₁
    · exact SameModes.removeOurModes s₁ c
  have h₃ : SameModes s₂ s₃ := SameModes.foldl _ (fun t _ => SameModes.sjoinNick t find link c _ _)
    _ s₂
  have hend : ∀ t, SameModes s₁ t → SameNames s t ∧
      (t.channel? c).map Channel.stamped = some (ch.stamped ⊔ ⟨h.newts, h.mode⟩) :=
    fun t ht => ⟨h₁.trans ht.toSameNames, (ht.stamped c).trans hc₁⟩
  split
  · exact hend _ h₂
  · rw [if_neg (by simp)]
    split
    · exact hend _ (h₂.trans h₃)
    split
    · exact hend _ ((h₂.trans h₃).trans (SameModes.removeBanLists s₃ c))
    · exact hend _ (h₂.trans h₃)

theorem receive_stamped {c : ℕ} {ch : Channel} {x : SjoinMessage} (hx : s.AcceptsSjoin c x)
    (hch : s.channel? c = some ch) (hts : ch.channelts ≠ 0) :
    SameNames s (receive cfg s x) ∧
      ((receive cfg s x).channel? c).map Channel.stamped = some (ch.stamped ⊔ x.stamped) := by
  obtain ⟨source, hs, hserver⟩ := Option.map_eq_some_iff.mp hx.source
  obtain ⟨h, hp, hf⟩ := Option.map_eq_some_iff.mp hx.header
  have hstamped : x.stamped = ⟨h.newts, h.mode⟩ := by rw [SjoinMessage.stamped, hp]; rfl
  have hnew : 800000000 ≤ h.newts := by
    have := hx.believed
    rwa [hstamped] at this
  have hmade : s.findOrMake x.now h.chname = (s, c, false) := by
    rw [findOrMake, hf]
  rw [receive, msSjoin, hs, hp, hstamped]
  simp only [hserver, Bool.false_eq_true, if_false, hmade, hch]
  exact msSjoinMerge_stamped hch hts hnew

/-- A run of accepted SJOINs is a join of stamped values. -/
theorem receive_run_stamped {c : ℕ} {ch : Channel} {l : List SjoinMessage}
    (hl : ∀ x ∈ l, s.AcceptsSjoin c x) (hch : s.channel? c = some ch) (hts : ch.channelts ≠ 0) :
    ((l.foldl (receive cfg) s).channel? c).map Channel.stamped =
      some ((l.map SjoinMessage.stamped).foldl (· ⊔ ·) ch.stamped) := by
  induction l generalizing s ch with
  | nil => rw [List.foldl_nil, hch]; rfl
  | cons x l ih =>
      have hx := hl x List.mem_cons_self
      have hreceive : SameNames s (receive cfg s x) ∧ ((receive cfg s x).channel? c).map
          Channel.stamped = some (ch.stamped ⊔ x.stamped) := receive_stamped hx hch hts
      obtain ⟨hnames, hstep⟩ := hreceive
      obtain ⟨ch', hch', hval⟩ := Option.map_eq_some_iff.mp hstep
      have hts' : ch'.channelts ≠ 0 := by
        have hstamp : ch'.channelts = min ch.channelts x.stamped.stamp := by
          have hm := Stamped.stamp_merge ch.stamped x.stamped
          rw [← Stamped.sup_def, ← hval] at hm
          exact hm
        have := hx.believed
        rcases min_choice ch.channelts x.stamped.stamp with h | h <;> omega
      rw [List.foldl_cons, List.map_cons, List.foldl_cons, ← hval]
      exact ih (fun y hy => hnames.accepts (hl y (List.mem_cons_of_mem _ hy))) hch' hts'

/-- The channel's timestamp and mode after a list of SJOINs. -/
def stampedAfter (cfg : Config) (s : Server) (c : ℕ) (l : List SjoinMessage) :
    Option (Stamped ℤ Mode) :=
  ((l.foldl (receive cfg) s).channel? c).map Channel.stamped

end Server

end Unirc
